import AtomicCss.Document.Node
import AtomicCss.Selector

/-!
# Writing the sheet

A document is written as a sequence of chunks: rules, at-rules and raw fragments. Nested selectors
become rules of their own behind the rule of the enclosing one. What stands in a media query is
written inside of it, under the selectors that enclose the query. Steps of keyframes are never
combined with enclosing selectors. Rules without a body and at-rules without content are left out.

The text of a chunk depends on its own content and on the containers around it, and on nothing
that stands beside it.
-/

namespace AtomicCss

/-- How a sheet is laid out. -/
structure Layout where
  /-- What one level of at-rules is indented by. -/
  indent : String
  /-- Whether a blank line stands between top-level chunks. -/
  blankLines : Bool
  deriving DecidableEq, Repr

/-- Two spaces per level, and no blank lines. -/
def Layout.standard : Layout := ⟨"  ", false⟩

/-- What a sheet is written with: the variables, the config's name and the indentation. -/
structure Writer where
  vars : Variables
  config : String
  indent : String

/-- Where a node stands: the containers around it with their labels, outermost first, the
selectors that apply there, the number of enclosing at-rules, and whether the innermost container
is a selector. -/
structure Place where
  scopes : List ContainerId
  labels : List String
  selectors : Option (List String)
  depth : Nat
  inRule : Bool

namespace Place

def outermost : Place := ⟨[], [], none, 0, false⟩

/-- The place inside of a container that does not change the selectors. -/
def enter (p : Place) (id : ContainerId) (kind : Kind) : Place :=
  { p with scopes := p.scopes ++ [id], labels := p.labels ++ [kind.label], inRule := false }

end Place

namespace Writer

def margin (w : Writer) (depth : Nat) : String := String.join (List.replicate depth w.indent)

/-- The text of a declaration, with its value resolved. -/
def declaration (w : Writer) (p : Place) (d : Declaration) : Except Error String :=
  match w.vars.resolveValue p.scopes d.value with
  | .ok value => .ok (" " ++ d.property ++ ": " ++ value ++ ";")
  | .error cause => .error (.lookup cause w.config (p.labels ++ [d.property]))

def inlined (css : String) : String :=
  " ".intercalate ((Text.words css.toList).map String.ofList)

/-- The rule of some selectors, unless it has no body or no selector. -/
def rule (w : Writer) (p : Place) (selectors : List String) (block : Block) (raws : List String) :
    Except Error (List String) :=
  let raws := (raws.map inlined).filter (· ≠ "")
  if (block.isEmpty && raws.isEmpty) || selectors.isEmpty then .ok []
  else do
    let declarations ← block.declarations.mapM (w.declaration p)
    let body := String.join declarations ++ String.join (raws.map (" " ++ ·))
    return [w.margin p.depth ++ ", ".intercalate selectors ++ " \x7b" ++ body ++ " \x7d\n"]

/-- An at-rule around some chunks, unless there are none. -/
def atRule (w : Writer) (depth : Nat) (header : String) (chunks : List String) : List String :=
  if chunks.isEmpty then []
  else [w.margin depth ++ header ++ " \x7b\n" ++ String.join chunks ++ w.margin depth ++ "\x7d\n"]

/-- A raw fragment outside of rules: its lines, indented alike. -/
def fragment (w : Writer) (depth : Nat) (css : String) : List String :=
  let lines := (Text.trimmedLines css.toList).map String.ofList
  if lines.isEmpty then []
  else [String.join (lines.map fun line => w.margin depth ++ line ++ "\n")]

def rawTexts (nodes : List Node) : List String :=
  nodes.filterMap fun
    | .raw css => some css
    | _ => none

mutual

def chunks (w : Writer) (p : Place) : Node → Except Error (List String)
  -- inside a rule, raw fragments were written with the declarations
  | .raw css => .ok (if p.inRule then [] else w.fragment p.depth css)
  | .slot _ entries => w.chunksOf p entries
  | .container id kind block children =>
    let here := p.enter id kind
    match kind with
    | .root => do
      let own ← w.rule here [":root"] block []
      let inner ← w.chunksOf { here with selectors := none } children
      return own ++ inner
    | .selector text => do
      let selectors := Selector.nest p.selectors text
      let own ← w.rule here selectors block (rawTexts children)
      let inner ← w.chunksOf { here with selectors := some selectors, inRule := true } children
      return own ++ inner
    | .media query => do
      -- declarations of a media query stand in a rule of the selectors around it
      let inside := { here with depth := p.depth + 1 }
      let own ← w.rule inside (p.selectors.getD [":root"]) block []
      let inner ← w.chunksOf inside children
      return w.atRule p.depth ("@media " ++ query) (own ++ inner)
    | .keyframes name => do
      let inner ← w.chunksOf { here with selectors := none, depth := p.depth + 1 } children
      return w.atRule p.depth ("@keyframes " ++ name) inner

/-- The chunks of some nodes, one after the other. -/
def chunksOf (w : Writer) (p : Place) : List Node → Except Error (List String)
  | [] => .ok []
  | n :: ns => do
    let first ← w.chunks p n
    let rest ← w.chunksOf p ns
    return first ++ rest

end

end Writer

def Document.sheet (d : Document) (vars : Variables) (config : String) (layout : Layout) :
    Except Error String := do
  let chunks ← Writer.chunks ⟨vars, config, layout.indent⟩ .outermost d.tree
  return (if layout.blankLines then "\n" else "").intercalate chunks

end AtomicCss
