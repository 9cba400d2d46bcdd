import AtomicCss.Proofs.Selector.Parts
import AtomicCss.Proofs.Sheet.Flattening
import AtomicCss.Proofs.Sheet.Pieces

/-! # References to the enclosing selector

A selector refers to the enclosing one with `&`. Nesting puts the enclosing selector there, and so what
results refers to something only if the enclosing one did (`Selector.mem_nest_iff`). Along a path from
the root that leaves a single place where a reference can come from: a selector that no other one
encloses (`Document.expanded_run`). -/

namespace AtomicCss

namespace Selector

variable {c : Char} {parent child text : String} {parents : List String} {fs : List (List Char)}

/-- A nested selector refers to something if the enclosing one does. What it referred to itself was
replaced. -/
theorem mem_under_iff : '&' ∈ (under parent child).toList ↔ '&' ∈ parent.toList := by
  unfold under
  split
  · rename_i hchild
    rw [String.toList_ofList, List.mem_flatMap]
    constructor
    · rintro ⟨c, -, hc⟩
      split at hc
      · exact hc
      · rename_i hne
        exact absurd (List.mem_singleton.1 hc).symm hne
    · intro hparent
      exact ⟨'&', by simpa using hchild, by rwa [if_pos rfl]⟩
  · rename_i hchild
    have hchild : '&' ∉ child.toList := by simpa using hchild
    have hblank : '&' ∉ " ".toList := by decide
    simp only [String.toList_append, List.mem_append, hchild, hblank, or_false]

/-! ## The characters of the selectors of a list -/

theorem mem_intercalate_iff (hc : c ≠ ',') : c ∈ [','].intercalate fs ↔ ∃ f ∈ fs, c ∈ f := by
  induction fs with
  | nil => simp [List.intercalate]
  | cons f fs ih =>
    cases fs with
    | nil => simp
    | cons g fs =>
      rw [List.intercalate_cons_cons, List.mem_append, List.mem_append, ih]
      simp [hc]

theorem mem_trim_iff (hc : Text.isBlank c = false) {s : List Char} : c ∈ Text.trim s ↔ c ∈ s := by
  obtain ⟨front, back, hs, hfront, hback⟩ := Text.exists_trim s
  have hnot {t : List Char} (ht : ∀ b ∈ t, Text.isBlank b = true) : c ∉ t := by
    intro hmem
    rw [ht c hmem] at hc
    cases hc
  conv_rhs => rw [hs]
  simp only [List.mem_append, hnot hfront, hnot hback, false_or, or_false]

/-- The selectors of a list have its characters, but for commas and blanks. -/
theorem exists_mem_splitList_iff (hcomma : c ≠ ',') (hblank : Text.isBlank c = false) :
    (∃ s ∈ splitList text, c ∈ s.toList) ↔ c ∈ text.toList := by
  conv_rhs => rw [← intercalate_cut .nothing text.toList, mem_intercalate_iff hcomma]
  rw [splitList_eq]
  constructor
  · rintro ⟨s, hs, hc⟩
    obtain ⟨part, hpart, rfl⟩ := List.mem_map.1 hs
    obtain ⟨f, hf, rfl⟩ := List.mem_map.1 (List.mem_filter.1 hpart).1
    rw [String.toList_ofList, mem_trim_iff hblank] at hc
    exact ⟨f, hf, hc⟩
  · rintro ⟨f, hf, hc⟩
    rw [← mem_trim_iff hblank] at hc
    refine ⟨String.ofList (Text.trim f), List.mem_map_of_mem (List.mem_filter.2 ⟨?_, ?_⟩), ?_⟩
    · exact List.mem_map_of_mem hf
    · simpa using List.ne_nil_of_mem hc
    · rwa [String.toList_ofList]

theorem exists_reference_iff : (∃ s ∈ splitList text, '&' ∈ s.toList) ↔ '&' ∈ text.toList :=
  exists_mem_splitList_iff (by decide) (by decide)

/-- Under selectors without references there are none. -/
theorem not_mem_of_mem_nest (hparents : ∀ p ∈ parents, '&' ∉ p.toList) :
    ∀ s ∈ nest (some parents) text, '&' ∉ s.toList := by
  intro s hs
  obtain ⟨p, hp, hs⟩ := List.mem_flatMap.1 hs
  obtain ⟨child, -, rfl⟩ := List.mem_map.1 hs
  rw [mem_under_iff]
  exact hparents p hp

/-! ## How many selectors there are -/

theorem length_choices (ls : List (List String)) : (choices ls).length = (ls.map List.length).prod := by
  induction ls with
  | nil => rfl
  | cons l ls ih =>
    rw [choices, List.length_flatMap, List.map_cons, List.prod_cons, ← ih]
    simp

/-- Lists that enclose each other have as many selectors as there are choices. -/
theorem length_product (texts : List String) :
    (product texts).length = (texts.map fun text => (splitList text).length).prod := by
  rw [product, List.length_map, length_choices, List.map_map]
  rfl

end Selector

/-! ## Places that no selector encloses -/

namespace Chain

variable {c : Chain} {a : Ancestor}

theorem selectors_concat (id : ContainerId) (kind : Kind) : selectors (c ++ [⟨id, kind⟩]) =
    match kind with
    | .root | .keyframes _ => [":root"]
    | .media _ => c.selectors
    | .selector text => Selector.nest c.selectors? text := by
  rw [selectors, selectors?_concat]
  cases kind <;> rfl

theorem selectors?_eq_none_iff : c.selectors? = none ↔ c.texts = [] := by
  rw [selectors?, ite_eq_left_iff]
  simp

/-- No selector encloses the place: only media queries come since the root or some keyframes. -/
inductive Free : Chain → Prop
  | reset {c : Chain} {a : Ancestor} (resets : a.kind.resets = true) : Free (c ++ [a])
  | media {c : Chain} {a : Ancestor} {query : String} (kind : a.kind = .media query)
      (free : Free c) : Free (c ++ [a])

/-- Where no selector encloses a place, no selector text has come since the selectors started anew. -/
theorem Free.texts_eq_nil (h : c.Free) : c.texts = [] := by
  induction h with
  | @reset c a resets => exact (texts_concat a.id a.kind).trans (if_pos resets)
  | @media c a query kind _ ih =>
    refine (texts_concat a.id a.kind).trans ?_
    rw [kind, ih]
    rfl

theorem length_selectors (c : Chain) :
    c.selectors.length = (c.texts.map fun text => (Selector.splitList text).length).prod := by
  rw [selectors, selectors?]
  split
  · rename_i h
    rw [h]
    rfl
  · exact Selector.length_product c.texts

end Chain

/-! ## The selectors of the rules -/

namespace Piece

variable {p : Place} {atRules : List String} {rule : Rule}

theorem selectors_of_mem_ofBlock {selectors : List String} {block : Block} {raws : List String}
    (h : rule ∈ rulesOf atRules (ofBlock p selectors block raws)) : rule.selectors = selectors := by
  unfold ofBlock at h
  simp only [] at h
  split at h
  · cases h
  · rw [List.mem_singleton.1 h]

/-- The rules of a container are its own one and those of what it holds. -/
theorem mem_rules_container {id : ContainerId} {kind : Kind} {block : Block} {children : List Node}
    (h : rule ∈ rulesOf atRules (Node.pieces p (.container id kind block children))) :
    rule.selectors = (p.within id kind).selectors.getD [":root"] ∨
      ∃ atRules', rule ∈ rulesOf atRules' (Node.piecesOf (p.within id kind) children) := by
  cases kind with
  | root =>
    rw [Node.pieces, rulesOf_append] at h
    exact (List.mem_append.1 h).imp selectors_of_mem_ofBlock fun h => ⟨_, h⟩
  | selector text =>
    rw [Node.pieces, rulesOf_append] at h
    exact (List.mem_append.1 h).imp selectors_of_mem_ofBlock fun h => ⟨_, h⟩
  | media query =>
    rw [Node.pieces, rulesOf_around, rulesOf_append] at h
    exact (List.mem_append.1 h).imp selectors_of_mem_ofBlock fun h => ⟨_, h⟩
  | keyframes name =>
    rw [Node.pieces, rulesOf_around] at h
    exact .inr ⟨_, h⟩

end Piece

theorem Chain.selectors?_within {p : Place} {c : Chain} (h : p.selectors = c.selectors?)
    (id : ContainerId) (kind : Kind) :
    (p.within id kind).selectors = selectors? (c ++ [⟨id, kind⟩]) := by
  rw [selectors?_concat, ← h]
  cases kind <;> rfl

namespace Node

open Piece (rulesOf)

mutual

/-- A rule is written for the selectors that apply where its container is met. -/
theorem exists_visit_of_mem_rules : ∀ (n : Node) {p : Place} {c : Chain} {atRules : List String}
    {rule : Rule}, p.selectors = c.selectors? → rule ∈ rulesOf atRules (n.pieces p) →
    ∃ v ∈ n.visits c, rule.selectors = v.chain.selectors
  | .raw css, p, c, atRules, rule, _, hrule => by
    rw [pieces] at hrule
    split at hrule
    · cases hrule
    · unfold Piece.ofRaw at hrule
      simp only [] at hrule
      split at hrule <;> cases hrule
  | .slot s entries, p, c, atRules, rule, hp, hrule => by
    rw [pieces] at hrule
    rw [visits]
    exact exists_visit_of_mem_rulesOf entries hp hrule
  | .container id kind block children, p, c, atRules, rule, hp, hrule => by
    have hinside := Chain.selectors?_within hp id kind
    rw [visits]
    rcases Piece.mem_rules_container hrule with hown | ⟨atRules', hinner⟩
    · exact ⟨_, List.mem_cons_self, by rw [hown, hinside]; rfl⟩
    · obtain ⟨v, hv, heq⟩ := exists_visit_of_mem_rulesOf children hinside hinner
      exact ⟨v, List.mem_cons_of_mem _ hv, heq⟩

theorem exists_visit_of_mem_rulesOf : ∀ (ns : List Node) {p : Place} {c : Chain}
    {atRules : List String} {rule : Rule}, p.selectors = c.selectors? →
    rule ∈ rulesOf atRules (piecesOf p ns) →
    ∃ v ∈ visitsOf c ns, rule.selectors = v.chain.selectors
  | [], p, c, atRules, rule, _, hrule => by cases hrule
  | n :: ns, p, c, atRules, rule, hp, hrule => by
    rw [piecesOf, Piece.rulesOf_append] at hrule
    rw [visitsOf]
    rcases List.mem_append.1 hrule with hrule | hrule
    · obtain ⟨v, hv, heq⟩ := exists_visit_of_mem_rules n hp hrule
      exact ⟨v, List.mem_append_left _ hv, heq⟩
    · obtain ⟨v, hv, heq⟩ := exists_visit_of_mem_rulesOf ns hp hrule
      exact ⟨v, List.mem_append_right _ hv, heq⟩

end

end Node

namespace Document

variable {d : Document} {c : Chain}

theorem WellFormed.exists_path_of_mem_rules (h : d.WellFormed) {rule : Rule} (hrule : rule ∈ d.rules) :
    ∃ c, d.Path c ∧ rule.selectors = c.selectors := by
  have houtermost : Place.outermost.selectors = Chain.selectors? [] := rfl
  obtain ⟨v, hv, heq⟩ := Node.exists_visit_of_mem_rules d.tree houtermost hrule
  exact ⟨v.chain, h.path_of_mem_visits hv, heq⟩

/-! ## Paths -/

/-- On a path something lets the selectors start anew, since it comes from the root. -/
theorem Path.free (hpath : d.Path c) (h : d.WellFormed) (htexts : c.texts = []) : c.Free := by
  induction hpath with
  | @root container get =>
    have hkind : container.kind = .root := by simpa [get] using h.root
    exact .reset (c := []) (by rw [hkind]; rfl)
  | @step above p id container _ _ _ ih =>
    rw [Chain.texts_concat] at htexts
    cases hkind : container.kind with
    | root => exact .reset rfl
    | keyframes name => exact .reset rfl
    | media query =>
      rw [hkind] at htexts
      exact .media rfl (ih ((List.append_nil _).symm.trans htexts))
    | selector text =>
      rw [hkind] at htexts
      simp [Kind.resets, Kind.selectorText?] at htexts

/-- Only the selectors that no other one encloses can bring references into the lists. -/
theorem Path.not_mem_selectors (hpath : d.Path c) (h : d.WellFormed)
    (hfree : ∀ (above : Chain) id text, d.Path (above ++ [⟨id, .selector text⟩]) → above.Free →
      '&' ∉ text.toList) : ∀ s ∈ c.selectors, '&' ∉ s.toList := by
  have hroot : ∀ s ∈ [":root"], '&' ∉ s.toList := by decide
  induction hpath with
  | @root container get =>
    have hkind : container.kind = .root := by simpa [get] using h.root
    rw [← List.nil_append [_], Chain.selectors_concat, hkind]
    exact hroot
  | @step above p id container path mem get ih =>
    have hstep := Path.step path mem get
    rw [Chain.selectors_concat]
    cases hkind : container.kind with
    | root => exact hroot
    | keyframes name => exact hroot
    | media query => exact ih
    | selector text =>
      rw [hkind] at hstep
      cases habove : Chain.selectors? (above ++ [p]) with
      | none =>
        have habove := path.free h (Chain.selectors?_eq_none_iff.1 habove)
        have htext := hfree _ id text hstep habove
        intro s hs hmem
        exact htext (Selector.exists_reference_iff.1 ⟨s, hs, hmem⟩)
      | some parents =>
        rw [Chain.selectors, habove] at ih
        exact Selector.not_mem_of_mem_nest ih

/-- **References to enclosing selectors are expanded.** The rules of a sheet are written for the
selectors of paths from the root. No list of these has a reference left if and only if no selector
refers to something that stands where nothing encloses it: below the root or some keyframes, with
nothing but media queries in between. In any case a list has as many selectors as there are choices
among those of the texts that it is made of. -/
theorem expanded_run (calls : List Call) :
    ((∀ c, (empty.run calls).Path c → ∀ s ∈ c.selectors, '&' ∉ s.toList) ↔
      ∀ (above : Chain) id text, (empty.run calls).Path (above ++ [⟨id, .selector text⟩]) →
        above.Free → '&' ∉ text.toList) ∧
    (∀ c, (empty.run calls).Path c →
      c.selectors.length = (c.texts.map fun text => (Selector.splitList text).length).prod) ∧
    ∀ rule ∈ (empty.run calls).rules, ∃ c, (empty.run calls).Path c ∧ rule.selectors = c.selectors := by
  have h := wellFormed_run calls
  refine ⟨⟨?_, ?_⟩, ?_, ?_⟩
  · intro hexpanded above id text hpath hfree hmem
    obtain ⟨s, hs, hsmem⟩ := Selector.exists_reference_iff.2 hmem
    refine hexpanded _ hpath s ?_ hsmem
    rw [Chain.selectors_concat, Chain.selectors?_eq_none_iff.2 hfree.texts_eq_nil]
    exact hs
  · intro hfree c hpath
    exact hpath.not_mem_selectors h hfree
  · intro c _
    exact c.length_selectors
  · intro rule hrule
    exact h.exists_path_of_mem_rules hrule

end Document

end AtomicCss
