import AtomicCss.Proofs.Css.PlainDeclaration
import AtomicCss.Sheet

/-! # Bodies of rules

What stands between the braces of a rule is a list of declarations. If the properties need no escapes and
the values are closed literals, then the block of the rule is read from it (`Writer.parseDeclarations_rule`). -/

namespace AtomicCss

open Css (PlainName PlainValue Segment Entry listed parseDeclarations)

variable {b : Block} {d : Declaration} {ds : List Declaration}

/-! ## Declarations -/

namespace Declaration

/-- The property needs no escapes, and the value is a literal that may stand in a list as it is. -/
structure Plain (d : Declaration) : Prop where
  property : PlainName d.property
  value : ∃ v, d.value = .literal v ∧ PlainValue v

instance : DecidablePred Plain := fun d =>
  decidable_of_iff (PlainName d.property ∧ ∃ v ∈ d.value.literal?, PlainValue v) <| by
    constructor
    · rintro ⟨hproperty, v, hv, hplain⟩
      refine ⟨hproperty, v, ?_, hplain⟩
      cases hvalue : d.value <;> simp_all [Value.literal?]
    · rintro ⟨hproperty, v, hv, hplain⟩
      exact ⟨hproperty, v, by rw [hv, Value.literal?]; rfl, hplain⟩

/-- What is written of a declaration whose value is a literal. -/
def verbatim (d : Declaration) : String :=
  " " ++ d.property ++ ": " ++ d.value.literal?.getD "" ++ ";"

/-- A literal is written as it is, wherever it stands. -/
theorem Plain.declaration_eq (h : d.Plain) (w : Writer) (p : Place) :
    w.declaration p d = .ok d.verbatim := by
  obtain ⟨v, hv, -⟩ := h.value
  have hresolve : w.vars.resolveValue p.scopes d.value = .ok v := by
    rw [hv, Variables.resolveValue, Value.fragments, resolveFragments, resolveFragments]
    exact congrArg Except.ok String.append_empty
  rw [Writer.declaration, hresolve]
  simp [verbatim, hv, Value.literal?]

/-- A list with a plain declaration in front. -/
theorem Plain.listed_append (h : d.Plain) (css : String) :
    ∃ e : Entry, listed (d.verbatim ++ css) = e :: listed css ∧
      e.pairs = [(d.property, d.value)] ∧ e.warnings = [] := by
  obtain ⟨v, hv, hplain⟩ := h.value
  have hsegment := Css.segment_declaration h.property hplain
  have hpair := Css.pair?_declaration h.property hplain true
  refine ⟨⟨Css.lex (" " ++ d.property ++ ": " ++ v).toList, true⟩, ?_, ?_, ?_⟩
  · rw [verbatim, hv]
    exact hsegment.listed_append css
  · rw [Entry.pairs, hpair, hv]
    rfl
  · rw [Entry.warnings, hpair]
    rfl

/-- **What is written of plain declarations is read as these declarations**, without warnings. -/
theorem parse_join (h : ∀ d ∈ ds, d.Plain) :
    parseDeclarations (String.join (ds.map verbatim)) =
      (Block.ofList (ds.map fun d => (d.property, d.value)), []) := by
  have hlist : (listed (String.join (ds.map verbatim))).flatMap Entry.pairs =
        ds.map (fun d => (d.property, d.value)) ∧
      (listed (String.join (ds.map verbatim))).flatMap Entry.warnings = [] := by
    induction ds with
    | nil =>
      rw [List.map_nil, String.join_nil, Css.listed_empty]
      exact ⟨rfl, rfl⟩
    | cons d ds ih =>
      obtain ⟨hd, hds⟩ := List.forall_mem_cons.1 h
      obtain ⟨e, hlisted, hpairs, hwarnings⟩ := hd.listed_append (String.join (ds.map verbatim))
      obtain ⟨ihpairs, ihwarnings⟩ := ih hds
      rw [List.map_cons, String.join_cons, hlisted, List.flatMap_cons, List.flatMap_cons, hpairs,
        hwarnings, ihpairs, ihwarnings]
      exact ⟨rfl, rfl⟩
  rw [Css.parseDeclarations_eq, hlist.1, hlist.2]

end Declaration

theorem mapM_eq_ok {α β ε : Type} {f : α → Except ε β} {g : α → β} {as : List α}
    (h : ∀ a ∈ as, f a = .ok (g a)) : as.mapM f = .ok (as.map g) := by
  induction as with
  | nil => rfl
  | cons a as ih =>
    obtain ⟨ha, has⟩ := List.forall_mem_cons.1 h
    rw [List.mapM_cons, ha, ih has]
    rfl

/-- What stands between the braces of a rule with a block of plain declarations. -/
def Block.body (b : Block) : String := String.join (b.declarations.map Declaration.verbatim)

/-- **Reading undoes writing.** The rule of a block of plain declarations has their texts in its body,
and the block is read from it: the same declarations in the same order, without warnings. -/
theorem Writer.parse_body (w : Writer) (p : Place) (selectors : List String) (b : Block)
    (h : ∀ d ∈ b.declarations, d.Plain) :
    w.rule p selectors b [] = .ok (if b.isEmpty || selectors.isEmpty then []
      else [w.margin p.depth ++ ", ".intercalate selectors ++ " \x7b" ++ b.body ++ " \x7d\n"]) ∧
    parseDeclarations b.body = (b, []) := by
  have hdeclarations : b.declarations.mapM (w.declaration p) =
      .ok (b.declarations.map Declaration.verbatim) :=
    mapM_eq_ok fun d hd => (h d hd).declaration_eq w p
  constructor
  · rw [rule, hdeclarations]
    simp only [List.map_nil, List.filter_nil, List.isEmpty_nil, Bool.and_true, String.join_nil,
      String.append_empty]
    split <;> rfl
  · rw [Block.body, Declaration.parse_join h, Block.ofList_declarations]

/-- A custom property, semicolons in brackets, in a string and behind a backslash, and a comment behind a
value. -/
theorem Writer.parse_body_nested :
    let w : Writer := ⟨∅, "base", "  "⟩
    let b := Block.ofList [("--brand", .literal "\x7b a; b \x7d \\;"), ("WebkitFilter", .literal "url(;) ';'"),
      ("margin", .literal "calc(1px + (2px)) /* ; */")]
    (∀ d ∈ b.declarations, d.Plain) ∧
    w.rule .outermost [".card", "a"] b [] = .ok [".card, a \x7b --brand: \x7b a; b \x7d \\;; " ++
      "-webkit-filter: url(;) ';'; margin: calc(1px + (2px)) /* ; */; \x7d\n"] ∧
    parseDeclarations b.body = (b, []) := by
  intro w b
  have h : ∀ d ∈ b.declarations, d.Plain := by decide +kernel
  obtain ⟨hrule, hparse⟩ := Writer.parse_body w .outermost [".card", "a"] b h
  refine ⟨h, ?_, hparse⟩
  rw [hrule]
  decide +kernel

end AtomicCss
