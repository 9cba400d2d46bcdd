import AtomicCss.Proofs.Sheet.Walk
import AtomicCss.Variables.Resolve
import Mathlib

/-! # What a sheet says

A sheet can be described without going down the tree. On the walk over a document, every container
and every raw fragment brings at most one text (`Visit.text?`), which depends on itself and on the
containers around it alone. The texts are put together in order, and neighbours in the same at-rule
share it (`Leaf.assemble`). `Document.flattened` is the sheet that comes about in this way. -/

namespace AtomicCss

theorem takeWhile_append_of_forall_not {α : Type} {p : α → Bool} {l l' : List α}
    (h : ∀ x ∈ l', p x = false) :
    (l ++ l').takeWhile p = l.takeWhile p ∧ (l ++ l').dropWhile p = l.dropWhile p ++ l' := by
  induction l with
  | nil =>
    cases l' with
    | nil => exact ⟨rfl, rfl⟩
    | cons x l' =>
      have hx := h x List.mem_cons_self
      simp [hx]
  | cons x l ih =>
    rw [List.cons_append, List.takeWhile_cons, List.takeWhile_cons, List.dropWhile_cons,
      List.dropWhile_cons]
    split
    · exact ⟨congrArg _ ih.1, ih.2⟩
    · exact ⟨rfl, rfl⟩

/-! ## Written declarations -/

/-- A declaration and the containers around it, the last of which declares it. -/
structure Written where
  chain : Chain
  declaration : Declaration
  deriving DecidableEq, Repr

namespace Written

/-- The text of the value, in the scopes of the containers around it. -/
def value (x : Written) (vars : Variables) : Except LookupError String :=
  vars.resolveValue x.chain.scopes x.declaration.value

/-- The labels of the containers around a declaration, and its property. -/
def path (x : Written) : List String := x.chain.labels ++ [x.declaration.property]

/-- The declaration with the text of its value. -/
def text (x : Written) (vars : Variables) (config : String) : Except Error String :=
  match x.value vars with
  | .ok value => .ok (x.declaration.property ++ ": " ++ value ++ ";")
  | .error cause => .error (.lookup cause config x.path)

end Written

/-- The declarations that are written when something is visited. Keyframes have no rule, and a rule
needs a selector. -/
def Visit.written (v : Visit) : List Written :=
  match v.content with
  | .container _ (.keyframes _) _ _ => []
  | .container _ _ block _ =>
    if v.chain.selectors?.getD [":root"] = [] then [] else block.declarations.map (⟨v.chain, ·⟩)
  | .raw _ => []

theorem Visit.mem_written {v : Visit} {x : Written} : x ∈ v.written ↔ ∃ id kind block raws,
    v.content = .container id kind block raws ∧ (∀ name, kind ≠ .keyframes name) ∧
      v.chain.selectors?.getD [":root"] ≠ [] ∧ x.chain = v.chain ∧
      x.declaration ∈ block.declarations := by
  obtain ⟨above, content⟩ := v
  obtain ⟨chain, declaration⟩ := x
  cases content with
  | raw css => simp [written]
  | container id kind block raws => cases kind <;>
      simp [written, and_assoc, and_comm (a := declaration ∈ _), eq_comm (a := chain)]

/-- The declarations of a document that are written, in order. -/
def Document.written (d : Document) : List Written := d.visits.flatMap Visit.written

/-! ## The text of a visit -/

/-- What stands in front of a line inside of some at-rules. -/
def indentation (indent : String) (depth : Nat) : String := String.join (List.replicate depth indent)

/-- A raw fragment on a single line. -/
def oneLine (css : String) : String := " ".intercalate ((Text.words css.toList).map String.ofList)

/-- The lines of a raw fragment that are not blank, without the blanks around them. -/
def rawLines (css : String) : List String := (Text.trimmedLines css.toList).map String.ofList

/-- A rule with the given items between its braces. Without an item or a selector there is none. -/
def ruleText? (margin : String) (selectors items : List String) : Option String :=
  if items = [] ∨ selectors = [] then none
  else some (margin ++ ", ".intercalate selectors ++ " \x7b " ++ " ".intercalate items ++ " \x7d\n")

namespace Visit

/-- The raw fragments in the rule of a container. Only selectors take theirs into the rule. -/
def raws (v : Visit) : List String :=
  match v.content with
  | .container _ (.selector _) _ raws => (raws.map oneLine).filter (· ≠ "")
  | _ => []

/-- The text that a visit brings, if it brings one. A container brings its rule: the declarations,
then the raw fragments. A raw fragment is written line by line, unless it stands in a rule. -/
def text? (v : Visit) (vars : Variables) (config indent : String) : Except Error (Option String) :=
  let margin := indentation indent v.chain.atRules.length
  match v.content with
  | .container .. => do
    let declarations ← v.written.mapM (·.text vars config)
    return ruleText? margin v.chain.selectors (declarations ++ v.raws)
  | .raw css =>
    .ok (if v.above.inRule ∨ rawLines css = [] then none
      else some (String.join ((rawLines css).map (margin ++ · ++ "\n"))))

end Visit

/-- A text and the at-rules that it stands in, outermost first. -/
structure Leaf where
  atRules : List AtRule
  text : String
  deriving DecidableEq, Repr

namespace Visit

variable {vars : Variables} {config indent : String} {v : Visit} {vs vs' : List Visit}
  {ls : List Leaf} {l : Leaf}

/-- The text of a visit, with the at-rules of the containers around it. -/
def leaf? (v : Visit) (vars : Variables) (config indent : String) : Except Error (Option Leaf) :=
  (v.text? vars config indent).map (Option.map (⟨v.chain.atRules, ·⟩))

/-- All that some visits bring, one after the other. -/
def leaves (vs : List Visit) (vars : Variables) (config indent : String) :
    Except Error (List Leaf) :=
  (vs.mapM (leaf? · vars config indent)).map List.reduceOption

theorem leaves_cons : leaves (v :: vs) vars config indent = do
    let own ← v.leaf? vars config indent
    let rest ← leaves vs vars config indent
    return own.toList ++ rest := by
  rw [leaves, List.mapM_cons, leaves]
  cases v.leaf? vars config indent with
  | error cause => rfl
  | ok own =>
    cases vs.mapM (leaf? · vars config indent) with
    | error cause => rfl
    | ok rest => cases own <;> rfl

theorem leaves_append : leaves (vs ++ vs') vars config indent = do
    let first ← leaves vs vars config indent
    let rest ← leaves vs' vars config indent
    return first ++ rest := by
  simp only [leaves, List.mapM_append]
  cases vs.mapM (leaf? · vars config indent) with
  | error cause => rfl
  | ok first =>
    cases vs'.mapM (leaf? · vars config indent) with
    | error cause => rfl
    | ok rest => exact congrArg Except.ok (List.reduceOption_append first rest)

theorem exists_visit_of_mem_leaves (h : leaves vs vars config indent = .ok ls) (hl : l ∈ ls) :
    ∃ v ∈ vs, l.atRules = v.chain.atRules := by
  induction vs generalizing ls with
  | nil =>
    obtain rfl := Except.ok.inj h
    cases hl
  | cons v vs ih =>
    rw [leaves_cons] at h
    obtain ⟨own, hown, h⟩ := bind_eq_ok.1 h
    obtain ⟨rest, hrest, h⟩ := bind_eq_ok.1 h
    obtain rfl := Except.ok.inj h
    rcases List.mem_append.1 hl with hl | hl
    · obtain rfl := Option.mem_toList.1 hl
      unfold leaf? at hown
      cases htext : v.text? vars config indent with
      | error cause =>
        rw [htext] at hown
        cases hown
      | ok text =>
        rw [htext] at hown
        obtain ⟨text, -, rfl⟩ := Option.map_eq_some_iff.1 (Except.ok.inj hown)
        exact ⟨v, List.mem_cons_self, rfl⟩
    · obtain ⟨v', hv', heq⟩ := ih hrest hl
      exact ⟨v', List.mem_cons_of_mem _ hv', heq⟩

end Visit

/-! ## Assembling -/

namespace Leaf

variable {indent : String} {depth : Nat} {ls ls' : List Leaf} {l : Leaf} {a : AtRule}

/-- Whether a text stands in the given at-rule, `depth` levels below the outermost one. -/
def standsIn (depth : Nat) (a : AtRule) (l : Leaf) : Bool := l.atRules[depth]? = some a

/-- How many levels of at-rules are left below the first `depth`, with one more for each text. -/
def levels (depth : Nat) (ls : List Leaf) : Nat := (ls.map (·.atRules.length - depth + 1)).sum

theorem levels_mono (h : ls.Sublist ls') {depth' : Nat} (hd : depth' ≤ depth) :
    levels depth ls ≤ levels depth' ls' := by
  induction h with
  | slnil => exact Nat.le_refl _
  | cons l _ ih =>
    simp only [levels, List.map_cons, List.sum_cons] at ih ⊢
    omega
  | cons_cons l _ ih =>
    simp only [levels, List.map_cons, List.sum_cons] at ih ⊢
    omega

/-- An at-rule around the texts in it. -/
def around (indent : String) (depth : Nat) (header : String) (texts : List String) : String :=
  indentation indent depth ++ header ++ " \x7b\n" ++ String.join texts ++
    indentation indent depth ++ "\x7d\n"

/-- Some texts that have the first `depth` at-rules in common, put together. Neighbours that have one
more in common stand in it together. -/
def assemble (indent : String) (depth : Nat) : List Leaf → List String
  | [] => []
  | l :: ls =>
    match _ : l.atRules[depth]? with
    | none => l.text :: assemble indent depth ls
    | some a =>
      around indent depth a.2
          (assemble indent (depth + 1) (l :: ls.takeWhile (standsIn depth a))) ::
        assemble indent depth (ls.dropWhile (standsIn depth a))
termination_by ls => levels depth ls
decreasing_by
  · simp [levels]
  · have := levels_mono (List.takeWhile_sublist (standsIn depth a) (l := ls)) (Nat.le_add_right depth 1)
    have := (List.getElem?_eq_some_iff.1 ‹_›).1
    simp only [levels, List.map_cons, List.sum_cons] at *
    omega
  · have := levels_mono (List.dropWhile_sublist (standsIn depth a) (l := ls)) (Nat.le_refl depth)
    simp only [levels, List.map_cons, List.sum_cons] at *
    omega

theorem assemble_nil : assemble indent depth [] = [] := by rw [assemble]

theorem assemble_cons_of_none (h : l.atRules[depth]? = none) :
    assemble indent depth (l :: ls) = l.text :: assemble indent depth ls := by
  rw [assemble]
  split
  · rfl
  · rename_i ha
    rw [h] at ha
    cases ha

theorem assemble_cons_of_some (h : l.atRules[depth]? = some a) :
    assemble indent depth (l :: ls) =
      around indent depth a.2
          (assemble indent (depth + 1) (l :: ls.takeWhile (standsIn depth a))) ::
        assemble indent depth (ls.dropWhile (standsIn depth a)) := by
  rw [assemble]
  split
  · rename_i ha
    rw [h] at ha
    cases ha
  · rename_i a' ha
    obtain rfl := Option.some.inj (h.symm.trans ha)
    rfl

theorem assemble_eq_nil_iff : assemble indent depth ls = [] ↔ ls = [] := by
  cases ls with
  | nil => exact iff_of_true assemble_nil rfl
  | cons l ls =>
    cases ha : l.atRules[depth]? with
    | none => simp [assemble_cons_of_none ha]
    | some a => simp [assemble_cons_of_some ha]

/-- Texts that all stand in one at-rule share it. -/
theorem assemble_of_forall (hne : ls ≠ []) (h : ∀ l ∈ ls, l.atRules[depth]? = some a) :
    assemble indent depth ls =
      [around indent depth a.2 (assemble indent (depth + 1) ls)] := by
  cases ls with
  | nil => exact absurd rfl hne
  | cons l ls =>
    have hall : ∀ l ∈ ls, standsIn depth a l = true := by
      intro l' hl'
      exact decide_eq_true (h l' (List.mem_cons_of_mem _ hl'))
    rw [assemble_cons_of_some (h l List.mem_cons_self), List.takeWhile_eq_self_iff.2 hall,
      List.dropWhile_eq_nil_iff.2 hall, assemble_nil]

/-- Texts that have no at-rule in common at the next level are put together apart. -/
theorem assemble_append (h : ∀ l ∈ ls, ∀ l' ∈ ls', ∀ a, l.atRules[depth]? = some a →
    l'.atRules[depth]? ≠ some a) :
    assemble indent depth (ls ++ ls') = assemble indent depth ls ++ assemble indent depth ls' := by
  induction hn : ls.length using Nat.strongRecOn generalizing ls with
  | _ n ih =>
    subst hn
    cases ls with
    | nil => simp [assemble_nil]
    | cons l ls =>
      cases ha : l.atRules[depth]? with
      | none =>
        have hrest := ih ls.length (Nat.lt_succ_self _)
          (fun x hx => h x (List.mem_cons_of_mem _ hx)) rfl
        rw [List.cons_append, assemble_cons_of_none ha, assemble_cons_of_none ha, hrest,
          List.cons_append]
      | some a =>
        have hnot : ∀ l' ∈ ls', standsIn depth a l' = false := by
          intro l' hl'
          exact decide_eq_false (h l List.mem_cons_self l' hl' a ha)
        obtain ⟨htake, hdrop⟩ := takeWhile_append_of_forall_not (l := ls) hnot
        have hsub := List.dropWhile_sublist (standsIn depth a) (l := ls)
        have hrest := ih _ (Nat.lt_succ_of_le hsub.length_le)
          (fun x hx => h x (List.mem_cons_of_mem _ (hsub.subset hx))) rfl
        rw [List.cons_append, assemble_cons_of_some ha, assemble_cons_of_some ha, htake, hdrop,
          hrest, List.cons_append]

end Leaf

/-- The sheet of a document, from what is met on the walk over it. -/
def Document.flattened (d : Document) (vars : Variables) (config indent : String) :
    Except Error String := do
  let leaves ← Visit.leaves d.visits vars config indent
  return String.join (Leaf.assemble indent 0 leaves)

end AtomicCss
