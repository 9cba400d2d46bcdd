import AtomicCss.Proofs.Block
import AtomicCss.Sheet

/-! # The pieces of a sheet

Which rules, at-rules and raw fragments a sheet consists of, and in which order, depends on the
document alone; the variables only enter into the text of each piece. So a sheet is written in two
steps: the document is cut into pieces, and these are written one by one (`Document.sheet_eq`).

The rules of a document are those among its pieces, each with its at-rules, its selectors and its
properties. -/

namespace AtomicCss

/-- One chunk of a sheet before it is written. -/
inductive Piece where
  | rule (place : Place) (selectors : List String) (block : Block) (raws : List String)
  | fragment (depth : Nat) (lines : List String)
  | atRule (depth : Nat) (header : String) (inner : List Piece)

namespace Piece

/-- The rule of some selectors, unless it has no body or no selector. -/
def ofBlock (p : Place) (selectors : List String) (block : Block) (raws : List String) :
    List Piece :=
  let raws := (raws.map Writer.inlined).filter (· ≠ "")
  if (block.isEmpty && raws.isEmpty) || selectors.isEmpty then []
  else [.rule p selectors block raws]

/-- A raw fragment, unless it is blank. -/
def ofRaw (depth : Nat) (css : String) : List Piece :=
  let lines := (Text.trimmedLines css.toList).map String.ofList
  if lines.isEmpty then [] else [.fragment depth lines]

/-- An at-rule around some pieces, unless there are none. -/
def around (depth : Nat) (header : String) (inner : List Piece) : List Piece :=
  if inner.isEmpty then [] else [.atRule depth header inner]

end Piece

mutual

/-- The pieces of a node. -/
def Node.pieces (p : Place) : Node → List Piece
  | .raw css => if p.inRule then [] else Piece.ofRaw p.depth css
  | .slot _ entries => Node.piecesOf p entries
  | .container id kind block children =>
    let here := p.enter id kind
    match kind with
    | .root =>
      Piece.ofBlock here [":root"] block [] ++ Node.piecesOf { here with selectors := none } children
    | .selector text =>
      let selectors := Selector.nest p.selectors text
      Piece.ofBlock here selectors block (Writer.rawTexts children) ++
        Node.piecesOf { here with selectors := some selectors, inRule := true } children
    | .media query =>
      let inside := { here with depth := p.depth + 1 }
      Piece.around p.depth ("@media " ++ query)
        (Piece.ofBlock inside (p.selectors.getD [":root"]) block [] ++ Node.piecesOf inside children)
    | .keyframes name =>
      Piece.around p.depth ("@keyframes " ++ name)
        (Node.piecesOf { here with selectors := none, depth := p.depth + 1 } children)

/-- The pieces of some nodes, one after the other. -/
def Node.piecesOf (p : Place) : List Node → List Piece
  | [] => []
  | n :: ns => n.pieces p ++ Node.piecesOf p ns

end

theorem Node.piecesOf_eq_flatMap (p : Place) (ns : List Node) :
    Node.piecesOf p ns = ns.flatMap (Node.pieces p) := by
  induction ns with
  | nil => rfl
  | cons n ns ih => rw [Node.piecesOf, ih, List.flatMap_cons]

def Document.pieces (d : Document) : List Piece := d.tree.pieces .outermost

/-! ## Writing pieces -/

namespace Writer

variable {w : Writer} {ps qs : List Piece}

mutual

/-- The text of a piece. -/
def text (w : Writer) : Piece → Except Error String
  | .rule p selectors block raws => do
    let declarations ← block.declarations.mapM (w.declaration p)
    let body := String.join declarations ++ String.join (raws.map (" " ++ ·))
    return w.margin p.depth ++ ", ".intercalate selectors ++ " \x7b" ++ body ++ " \x7d\n"
  | .fragment depth lines => .ok (String.join (lines.map fun line => w.margin depth ++ line ++ "\n"))
  | .atRule depth header inner => do
    let texts ← w.texts inner
    return w.margin depth ++ header ++ " \x7b\n" ++ String.join texts ++ w.margin depth ++ "\x7d\n"

/-- The texts of some pieces. -/
def texts (w : Writer) : List Piece → Except Error (List String)
  | [] => .ok []
  | q :: qs => do
    let first ← w.text q
    let rest ← w.texts qs
    return first :: rest

end

theorem texts_append : w.texts (ps ++ qs) = do
    let first ← w.texts ps
    let rest ← w.texts qs
    return first ++ rest := by
  induction ps with
  | nil =>
    rw [List.nil_append, texts]
    cases w.texts qs <;> rfl
  | cons q ps ih =>
    rw [List.cons_append, texts, texts, ih]
    cases w.text q with
    | error cause => rfl
    | ok first =>
      cases w.texts ps with
      | error cause => rfl
      | ok texts => cases w.texts qs <;> rfl

theorem texts_eq_ok_nil_iff : w.texts ps = .ok [] ↔ ps = [] := by
  cases ps with
  | nil => simp [texts]
  | cons q ps =>
    rw [texts]
    cases w.text q with
    | error cause => simp [bind, Except.bind]
    | ok first => cases w.texts ps <;> simp [bind, Except.bind, pure, Except.pure]

theorem texts_ofBlock (p : Place) (selectors : List String) (block : Block) (raws : List String) :
    w.texts (Piece.ofBlock p selectors block raws) = w.rule p selectors block raws := by
  unfold Piece.ofBlock rule
  simp only []
  split
  · rfl
  · rw [texts, text, texts]
    cases block.declarations.mapM (w.declaration p) <;> rfl

theorem texts_ofRaw (depth : Nat) (css : String) :
    w.texts (Piece.ofRaw depth css) = .ok (w.fragment depth css) := by
  unfold Piece.ofRaw fragment
  simp only []
  split <;> rfl

theorem texts_around (depth : Nat) (header : String) :
    w.texts (Piece.around depth header ps) = (w.texts ps).map (w.atRule depth header) := by
  unfold Piece.around
  split
  · rename_i hps
    rw [List.isEmpty_iff.1 hps]
    rfl
  · rename_i hps
    rw [texts, text, texts]
    cases hw : w.texts ps with
    | error cause => rfl
    | ok texts =>
      have hne : texts.isEmpty = false := by
        rw [Bool.eq_false_iff]
        intro hnil
        rw [List.isEmpty_iff.1 hnil, texts_eq_ok_nil_iff] at hw
        exact hps (List.isEmpty_iff.2 hw)
      show _ = Except.ok (atRule w depth header texts)
      rw [atRule, hne]
      rfl

mutual

/-- The chunks of a node are the texts of its pieces. -/
theorem chunks_eq : ∀ (n : Node) (p : Place), w.chunks p n = w.texts (n.pieces p)
  | .raw css, p => by
    rw [chunks, Node.pieces]
    split
    · rfl
    · rw [texts_ofRaw]
  | .slot s entries, p => by rw [chunks, Node.pieces, chunksOf_eq entries p]
  | .container id .root block children, p => by
    rw [chunks, Node.pieces, texts_append, texts_ofBlock, chunksOf_eq children]
  | .container id (.selector text) block children, p => by
    rw [chunks, Node.pieces, texts_append, texts_ofBlock, chunksOf_eq children]
  | .container id (.media query) block children, p => by
    rw [chunks, Node.pieces, texts_around, texts_append, texts_ofBlock, chunksOf_eq children]
    generalize w.rule _ _ block [] = own
    generalize w.texts _ = inner
    cases own with
    | error cause => rfl
    | ok own => cases inner <;> rfl
  | .container id (.keyframes name) block children, p => by
    rw [chunks, Node.pieces, texts_around, chunksOf_eq children]
    rfl

theorem chunksOf_eq : ∀ (ns : List Node) (p : Place), w.chunksOf p ns = w.texts (Node.piecesOf p ns)
  | [], p => rfl
  | n :: ns, p => by rw [chunksOf, Node.piecesOf, texts_append, chunks_eq n p, chunksOf_eq ns p]

end

end Writer

/-- **A sheet is made of the texts of its pieces.** -/
theorem Document.sheet_eq (d : Document) (vars : Variables) (config : String) (layout : Layout) :
    d.sheet vars config layout = (Writer.texts ⟨vars, config, layout.indent⟩ d.pieces).map
      (if layout.blankLines then "\n" else "").intercalate := by
  rw [sheet, Writer.chunks_eq]
  rfl

/-! ## Rules -/

/-- A rule as far as the document determines it: the headers of the at-rules around it, its
selectors, and its properties in order. -/
structure Rule where
  atRules : List String
  selectors : List String
  properties : List String
  deriving DecidableEq, Repr

namespace Piece

mutual

/-- The rules of a piece that stands inside of some at-rules. -/
def rules (atRules : List String) : Piece → List Rule
  | .rule _ selectors block _ => [⟨atRules, selectors, block.properties⟩]
  | .fragment .. => []
  | .atRule _ header inner => rulesOf (atRules ++ [header]) inner

def rulesOf (atRules : List String) : List Piece → List Rule
  | [] => []
  | q :: qs => q.rules atRules ++ rulesOf atRules qs

end

variable {atRules : List String} {ps qs : List Piece}

theorem rulesOf_append : rulesOf atRules (ps ++ qs) = rulesOf atRules ps ++ rulesOf atRules qs := by
  induction ps with
  | nil => rfl
  | cons q ps ih => rw [List.cons_append, rulesOf, rulesOf, ih, List.append_assoc]

theorem rulesOf_around (depth : Nat) (header : String) :
    rulesOf atRules (around depth header ps) = rulesOf (atRules ++ [header]) ps := by
  unfold around
  split
  · rename_i hps
    rw [List.isEmpty_iff.1 hps]
    rfl
  · rw [rulesOf, rules, rulesOf, List.append_nil]

end Piece

/-- The rules of a sheet in order. -/
def Document.rules (d : Document) : List Rule := Piece.rulesOf [] d.pieces

end AtomicCss
