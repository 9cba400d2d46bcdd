import AtomicCss.Proofs.Selector.Parts
import Mathlib.Data.List.Basic

/-! # Unambiguous selector lists

Nesting puts the selectors of a list into those of another one, perhaps inside of brackets. If the
texts of all lists are plain, then every selector that comes about has its brackets paired and its
commas inside of them (`Single`). Such selectors can be read back from the list that is written of
them (`unambiguous_of_single`). -/

namespace AtomicCss.Selector

/-- Whether the brackets of a text are paired when `depth` of them are open in front of it. Round
and square ones are not told apart. -/
def balanced : Nat → List Char → Bool
  | depth, [] => depth == 0
  | depth, c :: s =>
    if c = '(' || c = '[' then balanced (depth + 1) s
    else if c = ')' || c = ']' then 0 < depth && balanced (depth - 1) s
    else balanced depth s

/-- A text without quotes whose brackets are paired. -/
def Plain (text : String) : Prop :=
  '"' ∉ text.toList ∧ '\'' ∉ text.toList ∧ balanced 0 text.toList = true

instance : DecidablePred Plain := fun _ => inferInstanceAs (Decidable (_ ∧ _))

/-- Each selector is the only one of its text, and the list that is written of them has these and
no others. -/
def Unambiguous (selectors : List String) : Prop :=
  (∀ s ∈ selectors, splitList s = [s]) ∧ splitList (", ".intercalate selectors) = selectors

/-- The text has no quotes, it pairs its brackets and closes the `depth` ones in front of it, and
its commas stand inside of brackets. -/
inductive Guarded : Nat → List Char → Prop
  | nil : Guarded 0 []
  | opening {depth : Nat} {c : Char} {s : List Char} (hc : c = '(' ∨ c = '[')
      (rest : Guarded (depth + 1) s) : Guarded depth (c :: s)
  | closing {depth : Nat} {c : Char} {s : List Char} (hc : c = ')' ∨ c = ']')
      (rest : Guarded depth s) : Guarded (depth + 1) (c :: s)
  | comma {depth : Nat} {s : List Char} (rest : Guarded (depth + 1) s) :
      Guarded (depth + 1) (',' :: s)
  | inert {depth : Nat} {c : Char} {s : List Char} (hc : Opening.Inert c)
      (rest : Guarded depth s) : Guarded depth (c :: s)

variable {depth k : Nat} {c : Char} {s t front back parent child f : List Char}
  {fs : List (List Char)}

namespace Opening

theorem next_opening (hc : c = '(' ∨ c = '[') : next ⟨depth, none⟩ c = ⟨depth + 1, none⟩ := by
  rcases hc with rfl | rfl <;> rfl

theorem next_closing (hc : c = ')' ∨ c = ']') : next ⟨depth + 1, none⟩ c = ⟨depth, none⟩ := by
  rcases hc with rfl | rfl <;> rfl

theorem cases_of_not_quote (hdouble : c ≠ '"') (hsingle : c ≠ '\'') :
    (c = '(' ∨ c = '[') ∨ (c = ')' ∨ c = ']') ∨ c = ',' ∨ Inert c := by
  simp only [Inert, List.mem_cons, List.not_mem_nil, or_false]
  tauto

theorem next_inert (hc : Inert c) : next ⟨depth, none⟩ c = ⟨depth, none⟩ :=
  next_of_inert (fun _ h => nomatch h) hc

end Opening

theorem balanced_opening (hc : c = '(' ∨ c = '[') :
    balanced depth (c :: s) = balanced (depth + 1) s := by
  rcases hc with rfl | rfl <;> rfl

theorem exists_of_balanced_closing (hc : c = ')' ∨ c = ']') (h : balanced depth (c :: s) = true) :
    ∃ depth', depth = depth' + 1 ∧ balanced depth' s = true := by
  have hs : (0 < depth && balanced (depth - 1) s) = true := by rcases hc with rfl | rfl <;> exact h
  cases depth with
  | zero => cases hs
  | succ depth => exact ⟨depth, rfl, by simpa using hs⟩

theorem balanced_comma : balanced depth (',' :: s) = balanced depth s := rfl

theorem balanced_inert (hc : Opening.Inert c) : balanced depth (c :: s) = balanced depth s := by
  simp only [Opening.Inert, List.mem_cons, List.not_mem_nil, or_false, not_or] at hc
  simp [balanced, hc]

namespace Guarded

theorem append (hs : Guarded k s) (ht : Guarded depth t) : Guarded (k + depth) (s ++ t) := by
  induction hs with
  | nil => rwa [Nat.zero_add]
  | opening hc _ ih =>
    rw [Nat.add_right_comm] at ih
    exact .opening hc ih
  | closing hc _ ih =>
    rw [Nat.add_right_comm]
    exact .closing hc ih
  | comma _ ih =>
    rw [Nat.add_right_comm] at ih ⊢
    exact .comma ih
  | inert hc _ ih => exact .inert hc ih

/-- A text that takes the place of one character may bring brackets and commas along. -/
theorem fill (hparent : Guarded 0 parent) (hchild : Guarded depth child) :
    Guarded depth (child.flatMap fun c => if c = '&' then parent else [c]) := by
  induction hchild with
  | nil => exact .nil
  | opening hc _ ih =>
    rw [List.flatMap_cons, if_neg (by rcases hc with rfl | rfl <;> decide)]
    exact .opening hc ih
  | closing hc _ ih =>
    rw [List.flatMap_cons, if_neg (by rcases hc with rfl | rfl <;> decide)]
    exact .closing hc ih
  | comma _ ih => exact .comma ih
  | inert hc _ ih =>
    rw [List.flatMap_cons]
    split
    · have happend := hparent.append ih
      rwa [Nat.zero_add] at happend
    · exact .inert hc ih

theorem uncut (h : Guarded depth s) : (⟨depth, none⟩ : Opening).Uncut s := by
  induction h with
  | nil => trivial
  | opening hc _ ih =>
    refine ⟨fun hcut => ?_, by rwa [Opening.next_opening hc]⟩
    rcases hc with rfl | rfl <;> exact absurd hcut.2 (by decide)
  | closing hc _ ih =>
    exact ⟨fun hcut => absurd hcut.1 (by simp [Opening.nothing]), by rwa [Opening.next_closing hc]⟩
  | comma _ ih => exact ⟨fun hcut => absurd hcut.1 (by simp [Opening.nothing]), ih⟩
  | inert hc _ ih =>
    refine ⟨?_, by rwa [Opening.next_inert hc]⟩
    rintro ⟨-, rfl⟩
    exact absurd hc (by decide)

theorem after (h : Guarded depth s) : (⟨depth, none⟩ : Opening).after s = .nothing := by
  induction h with
  | nil => rfl
  | opening hc _ ih => rw [Opening.after_cons, Opening.next_opening hc, ih]
  | closing hc _ ih => rw [Opening.after_cons, Opening.next_closing hc, ih]
  | comma _ ih => exact ih
  | inert hc _ ih => rw [Opening.after_cons, Opening.next_inert hc, ih]

theorem of_cons (hc : Opening.Inert c) (h : Guarded depth (c :: s)) : Guarded depth s := by
  cases h with
  | opening hc' _ => rcases hc' with rfl | rfl <;> exact absurd hc (by decide)
  | closing hc' _ => rcases hc' with rfl | rfl <;> exact absurd hc (by decide)
  | comma _ => exact absurd hc (by decide)
  | inert _ rest => exact rest

theorem of_inert_append (hfront : ∀ c ∈ front, Opening.Inert c)
    (h : Guarded depth (front ++ s)) : Guarded depth s := by
  induction front with
  | nil => exact h
  | cons c front ih =>
    obtain ⟨hc, hfront⟩ := List.forall_mem_cons.1 hfront
    exact ih hfront (h.of_cons hc)

theorem of_append_inert (hback : ∀ c ∈ back, Opening.Inert c)
    (h : Guarded depth (s ++ back)) : Guarded depth s := by
  induction s generalizing depth with
  | nil =>
    rw [List.nil_append, ← List.append_nil back] at h
    exact h.of_inert_append hback
  | cons c s ih =>
    cases h with
    | opening hc rest => exact .opening hc (ih rest)
    | closing hc rest => exact .closing hc (ih rest)
    | comma rest => exact .comma (ih rest)
    | inert hc rest => exact .inert hc (ih rest)

theorem trim (h : Guarded depth s) : Guarded depth (Text.trim s) := by
  obtain ⟨front, back, hs, hfront, hback⟩ := Text.exists_trim s
  rw [hs] at h
  have hkept := h.of_append_inert fun c hc => Opening.inert_of_isBlank (hback c hc)
  exact hkept.of_inert_append fun c hc => Opening.inert_of_isBlank (hfront c hc)

/-- The first part of a plain text closes what is open in front of it, and the other parts close what
they open themselves. -/
theorem of_cut (hdouble : '"' ∉ s) (hsingle : '\'' ∉ s) (hs : balanced depth s = true)
    (hcut : (⟨depth, none⟩ : Opening).cut s = f :: fs) :
    Guarded depth f ∧ ∀ g ∈ fs, Guarded 0 g := by
  induction s generalizing depth f fs with
  | nil =>
    rw [Opening.cut_nil, List.cons.injEq] at hcut
    obtain ⟨rfl, rfl⟩ := hcut
    obtain rfl := beq_iff_eq.1 hs
    exact ⟨.nil, by simp⟩
  | cons c s ih =>
    rw [List.mem_cons, not_or] at hdouble hsingle
    by_cases hend : (⟨depth, none⟩ : Opening) = .nothing ∧ c = ','
    · obtain ⟨hdepth, rfl⟩ := hend
      obtain rfl : depth = 0 := congrArg Opening.depth hdepth
      rw [Opening.cut_cons, if_pos ⟨rfl, rfl⟩, List.cons.injEq] at hcut
      obtain ⟨rfl, rfl⟩ := hcut
      obtain ⟨g, gs, hg⟩ := Opening.exists_cut .nothing s
      rw [hg]
      exact ⟨.nil, List.forall_mem_cons.2 (ih hdouble.2 hsingle.2 hs hg)⟩
    · obtain ⟨g, gs, hg⟩ := Opening.exists_cut (Opening.next ⟨depth, none⟩ c) s
      rw [Opening.cut_cons_of_not hend hg, List.cons.injEq] at hcut
      obtain ⟨rfl, rfl⟩ := hcut
      rcases Opening.cases_of_not_quote (Ne.symm hdouble.1) (Ne.symm hsingle.1) with hc | hc | rfl | hc
      · rw [balanced_opening hc] at hs
        rw [Opening.next_opening hc] at hg
        obtain ⟨hhead, hrest⟩ := ih hdouble.2 hsingle.2 hs hg
        exact ⟨.opening hc hhead, hrest⟩
      · obtain ⟨depth, rfl, hclosed⟩ := exists_of_balanced_closing hc hs
        rw [Opening.next_closing hc] at hg
        obtain ⟨hhead, hrest⟩ := ih hdouble.2 hsingle.2 hclosed hg
        exact ⟨.closing hc hhead, hrest⟩
      · cases depth with
        | zero => exact absurd ⟨rfl, rfl⟩ hend
        | succ depth =>
          obtain ⟨hhead, hrest⟩ := ih hdouble.2 hsingle.2 (balanced_comma.symm.trans hs) hg
          exact ⟨.comma hhead, hrest⟩
      · rw [balanced_inert hc] at hs
        rw [Opening.next_inert hc] at hg
        obtain ⟨hhead, hrest⟩ := ih hdouble.2 hsingle.2 hs hg
        exact ⟨.inert hc hhead, hrest⟩

end Guarded

/-! ## Single selectors -/

/-- A guarded text that neither starts nor ends with a blank. -/
structure Single (s : List Char) : Prop where
  guarded : Guarded 0 s
  head : ∃ c ∈ s.head?, Text.isBlank c = false
  last : ∃ c ∈ s.getLast?, Text.isBlank c = false

namespace Single

theorem ne_nil (h : Single s) : s ≠ [] := by
  rintro rfl
  obtain ⟨c, hc, -⟩ := h.head
  cases hc

theorem trim_eq (h : Single s) : Text.trim s = s := by
  obtain ⟨c, hc, hhead⟩ := h.head
  obtain ⟨d, hd, hlast⟩ := h.last
  apply Text.trim_eq_self
  · intro c' hc'
    rwa [← Option.mem_unique hc hc']
  · intro d' hd'
    rwa [← Option.mem_unique hd hd']

theorem ne_empty {s : String} (h : Single s.toList) : s ≠ "" :=
  fun hs => h.ne_nil (String.toList_eq_nil_iff.2 hs)

theorem trimmed_eq {s : String} (h : Single s.toList) : Text.trimmed s = s := by
  rw [Text.trimmed, h.trim_eq, String.ofList_toList]

theorem splitList_eq {s : String} (h : Single s.toList) : splitList s = [s] :=
  splitList_of_uncut h.trim_eq h.ne_empty h.guarded.uncut

/-- A selector below another one. -/
theorem descendant (hparent : Single parent) (hchild : Single child) :
    Single (parent ++ ' ' :: child) where
  guarded := hparent.guarded.append (.inert (by decide) hchild.guarded)
  head := by
    obtain ⟨c, hc, hblank⟩ := hparent.head
    exact ⟨c, List.mem_head?_append_of_mem_head? hc, hblank⟩
  last := by
    obtain ⟨c, hc, hblank⟩ := hchild.last
    refine ⟨c, ?_, hblank⟩
    rw [← List.singleton_append, ← List.append_assoc]
    exact List.mem_getLast?_append_of_mem_getLast? hc

/-- A selector with another one in each of its marked places. -/
theorem fill (hparent : Single parent) (hchild : Single child) :
    Single (child.flatMap fun c => if c = '&' then parent else [c]) where
  guarded := hparent.guarded.fill hchild.guarded
  head := by
    obtain ⟨c, hc, hblank⟩ := hchild.head
    obtain ⟨rest, rfl⟩ := List.head?_eq_some_iff.1 hc
    rw [List.flatMap_cons]
    split
    · obtain ⟨c', hc', hblank'⟩ := hparent.head
      exact ⟨c', List.mem_head?_append_of_mem_head? hc', hblank'⟩
    · exact ⟨c, rfl, hblank⟩
  last := by
    obtain ⟨c, hc, hblank⟩ := hchild.last
    obtain ⟨rest, rfl⟩ := List.getLast?_eq_some_iff.1 hc
    rw [List.flatMap_append, List.flatMap_singleton]
    split
    · obtain ⟨c', hc', hblank'⟩ := hparent.last
      exact ⟨c', List.mem_getLast?_append_of_mem_getLast? hc', hblank'⟩
    · exact ⟨c, List.mem_getLast?_append_of_mem_getLast? rfl, hblank⟩

theorem under {parent child : String} (hparent : Single parent.toList)
    (hchild : Single child.toList) : Single (under parent child).toList := by
  unfold Selector.under
  split
  · rw [String.toList_ofList]
    exact hparent.fill hchild
  · rw [String.toList_append, String.toList_append, List.append_assoc]
    exact hparent.descendant hchild

end Single

theorem Plain.single_of_mem {text s : String} (h : Plain text) (hs : s ∈ splitList text) :
    Single s.toList := by
  rw [splitList_eq] at hs
  obtain ⟨part, hpart, rfl⟩ := List.mem_map.1 hs
  obtain ⟨hpart, hne⟩ := List.mem_filter.1 hpart
  obtain ⟨f, hf, rfl⟩ := List.mem_map.1 hpart
  have hguarded : Guarded 0 f := by
    obtain ⟨g, gs, hcut⟩ := Opening.exists_cut .nothing text.toList
    obtain ⟨hhead, hrest⟩ := Guarded.of_cut h.1 h.2.1 h.2.2 hcut
    rw [hcut] at hf
    rcases List.mem_cons.1 hf with rfl | hf
    · exact hhead
    · exact hrest f hf
  have hne : Text.trim f ≠ [] := by simpa using hne
  rw [String.toList_ofList]
  exact {
    guarded := hguarded.trim
    head := ⟨_, List.head?_eq_some_head hne, Text.head?_trim (List.head?_eq_some_head hne)⟩
    last := ⟨_, List.getLast?_eq_some_getLast hne,
      Text.getLast?_trim (List.getLast?_eq_some_getLast hne)⟩ }

/-- Nesting makes single selectors of single ones. -/
theorem Plain.single_of_mem_nest {parents : Option (List String)} {text s : String}
    (hparents : ∀ ps, parents = some ps → ∀ p ∈ ps, Single p.toList) (h : Plain text)
    (hs : s ∈ nest parents text) : Single s.toList := by
  cases parents with
  | none => exact h.single_of_mem hs
  | some ps =>
    obtain ⟨p, hp, hs⟩ := List.mem_flatMap.1 hs
    obtain ⟨child, hchild, rfl⟩ := List.mem_map.1 hs
    exact (hparents ps rfl p hp).under (h.single_of_mem hchild)

/-! ## Lists of selectors -/

theorem unambiguous_of_single {ss : List String} (h : ∀ s ∈ ss, Single s.toList) :
    Unambiguous ss := by
  refine ⟨fun s hs => (h s hs).splitList_eq, splitList_intercalate ⟨?_, ?_⟩ ?_⟩
  · intro f hf
    obtain ⟨s, hs, rfl⟩ := List.mem_map.1 hf
    exact (h s hs).guarded.uncut
  · exact List.pairwise_map.2 (List.pairwise_of_forall_mem_list
      fun s hs _ _ => (h s hs).guarded.after)
  · intro s hs
    exact ⟨(h s hs).ne_empty, (h s hs).trimmed_eq⟩

end AtomicCss.Selector
