import AtomicCss.Proofs.Text
import AtomicCss.Selector

/-! # Where selector lists are cut

A list is cut at a comma where no bracket and no quote is open. What is open changes with every
character (`Opening.next`). A text without such a comma is cut nowhere (`Opening.uncut_iff`), and it is
one selector if it has no blanks at its ends (`splitList_of_uncut`). -/

namespace AtomicCss.Selector

/-- What is open at a place in a text: some brackets, and perhaps a quote. -/
structure Opening where
  depth : Nat
  quote : Option Char
  deriving DecidableEq, Repr

namespace Opening

/-- Nothing is open. -/
def nothing : Opening := ⟨0, none⟩

/-- What is open behind one more character. -/
def next (o : Opening) (c : Char) : Opening :=
  match o.quote with
  | some q => ⟨o.depth, if c = q then none else some q⟩
  | none =>
    if c = '"' || c = '\'' then ⟨o.depth, some c⟩
    else if c = '(' || c = '[' then ⟨o.depth + 1, none⟩
    else if c = ')' || c = ']' then ⟨o.depth - 1, none⟩
    else o

/-- A character that opens nothing, closes nothing and cuts nowhere. -/
def Inert (c : Char) : Prop := c ∉ ['"', '\'', '(', '[', ')', ']', ',']

instance : DecidablePred Inert := fun c => inferInstanceAs (Decidable (c ∉ _))

/-- The open quote is one of those that are looked for. -/
def Proper (o : Opening) : Prop := ∀ q, o.quote = some q → ¬Inert q

theorem inert_of_isBlank {c : Char} (h : Text.isBlank c = true) : Inert c := by
  intro hc
  simp only [List.mem_cons, List.not_mem_nil, or_false] at hc
  rcases hc with rfl | rfl | rfl | rfl | rfl | rfl | rfl <;> exact absurd h (by decide)

/-- What is open behind a text. -/
def after (o : Opening) (s : List Char) : Opening := s.foldl next o

/-- The parts of a text that starts where something is open. -/
def cut (o : Opening) (s : List Char) : List (List Char) := Selector.cut o.depth o.quote s

/-- Whether a text is cut nowhere. -/
def Uncut (o : Opening) : List Char → Prop
  | [] => True
  | c :: s => ¬(o = nothing ∧ c = ',') ∧ Uncut (o.next c) s

variable {o : Opening} {c : Char} {s t f : List Char} {fs : List (List Char)}

@[simp] theorem after_nil : o.after [] = o := rfl

@[simp] theorem after_cons : o.after (c :: s) = (o.next c).after s := rfl

theorem proper_nothing : nothing.Proper := fun _ h => nomatch h

theorem Proper.next (ho : o.Proper) (c : Char) : (o.next c).Proper := by
  obtain ⟨depth, quote⟩ := o
  intro q hq
  cases quote with
  | some q' =>
    by_cases hc : c = q'
    · simp [Opening.next, hc] at hq
    · simp only [Opening.next, hc, if_false, Option.some.injEq] at hq
      exact hq ▸ ho q' rfl
  | none =>
    dsimp only [Opening.next] at hq
    split at hq
    · rename_i hc
      obtain rfl := Option.some.inj hq
      simp only [Bool.or_eq_true, decide_eq_true_eq] at hc
      rcases hc with rfl | rfl <;> decide
    · split_ifs at hq

theorem next_of_inert (ho : o.Proper) (hc : Inert c) : o.next c = o := by
  obtain ⟨depth, quote⟩ := o
  cases quote with
  | some q =>
    have hq : c ≠ q := by
      rintro rfl
      exact ho c rfl hc
    simp [next, hq]
  | none =>
    simp only [Inert, List.mem_cons, List.not_mem_nil, or_false, not_or] at hc
    simp [next, hc]

theorem after_of_inert (ho : o.Proper) (hs : ∀ c ∈ s, Inert c) : o.after s = o := by
  induction s with
  | nil => rfl
  | cons c s ih =>
    obtain ⟨hc, hs⟩ := List.forall_mem_cons.1 hs
    rw [after_cons, next_of_inert ho hc, ih hs]

theorem cut_nil : o.cut [] = [[]] := rfl

/-- One character more is a cut, or belongs to the first part. -/
theorem cut_cons (o : Opening) (c : Char) (s : List Char) : o.cut (c :: s) =
    if o = nothing ∧ c = ',' then [] :: nothing.cut s else Text.grow c ((o.next c).cut s) := by
  obtain ⟨depth, quote⟩ := o
  cases quote with
  | some q => exact (if_neg (by simp [nothing])).symm
  | none =>
    have hcut : cut ⟨depth, none⟩ (c :: s) =
        if c = '"' || c = '\'' then Text.grow c (cut ⟨depth, some c⟩ s)
        else if c = '(' || c = '[' then Text.grow c (cut ⟨depth + 1, none⟩ s)
        else if c = ')' || c = ']' then Text.grow c (cut ⟨depth - 1, none⟩ s)
        else if c = ',' && depth = 0 then [] :: nothing.cut s
        else Text.grow c (cut ⟨depth, none⟩ s) := rfl
    by_cases hcomma : c = ','
    · subst hcomma
      by_cases hdepth : depth = 0
      · subst hdepth
        rfl
      · have hopen : ¬((⟨depth, none⟩ : Opening) = nothing ∧ ',' = ',') :=
          fun h => hdepth (congrArg Opening.depth h.1)
        rw [hcut, if_neg hopen]
        simp [next, hdepth]
    · have hopen : ¬((⟨depth, none⟩ : Opening) = nothing ∧ c = ',') := fun h => hcomma h.2
      have hbare : ¬((decide (c = ',') && decide (depth = 0)) = true) := by simp [hcomma]
      rw [hcut, if_neg hopen, if_neg hbare]
      dsimp only [next]
      split_ifs <;> rfl

theorem cut_ne_nil (o : Opening) (s : List Char) : o.cut s ≠ [] := by
  cases s with
  | nil => simp [cut_nil]
  | cons c s =>
    rw [cut_cons]
    split
    · simp
    · cases (o.next c).cut s <;> simp [Text.grow]

theorem exists_cut (o : Opening) (s : List Char) : ∃ f fs, o.cut s = f :: fs :=
  List.exists_cons_of_ne_nil (cut_ne_nil o s)

theorem cut_cons_of_not (hc : ¬(o = nothing ∧ c = ',')) (hs : (o.next c).cut s = f :: fs) :
    o.cut (c :: s) = (c :: f) :: fs := by
  rw [cut_cons, if_neg hc, hs, Text.grow]

theorem uncut_append : o.Uncut (s ++ t) ↔ o.Uncut s ∧ (o.after s).Uncut t := by
  induction s generalizing o with
  | nil => simp [Uncut]
  | cons c s ih => rw [List.cons_append, Uncut, Uncut, ih, after_cons, and_assoc]

/-- A text without commas is cut nowhere. -/
theorem uncut_of_not_mem (h : ',' ∉ s) : o.Uncut s := by
  induction s generalizing o with
  | nil => trivial
  | cons c s ih =>
    rw [List.mem_cons, not_or] at h
    exact ⟨fun hcut => h.1 hcut.2.symm, ih h.2⟩

theorem uncut_of_inert (hs : ∀ c ∈ s, Inert c) : o.Uncut s :=
  uncut_of_not_mem fun h => absurd (hs ',' h) (by decide)

/-- A text that is cut nowhere belongs to the first part. -/
theorem cut_append (h : o.Uncut s) (ht : (o.after s).cut t = f :: fs) :
    o.cut (s ++ t) = (s ++ f) :: fs := by
  induction s generalizing o with
  | nil => exact ht
  | cons c s ih => exact cut_cons_of_not h.1 (ih h.2 ht)

theorem uncut_iff : o.Uncut s ↔ o.cut s = [s] := by
  constructor
  · intro h
    have hcut := cut_append (t := []) h cut_nil
    rwa [List.append_nil] at hcut
  · intro h
    induction s generalizing o with
    | nil => trivial
    | cons c s ih =>
      obtain ⟨f, fs, hs⟩ := exists_cut (o.next c) s
      by_cases hc : o = nothing ∧ c = ','
      · rw [cut_cons, if_pos hc] at h
        cases h
      · rw [cut_cons_of_not hc hs, List.cons.injEq, List.cons.injEq] at h
        refine ⟨hc, ih ?_⟩
        rw [hs, h.1.2, h.2]

/-- A text that nothing is open behind is a part of its own in front of a comma. -/
theorem cut_append_comma (h : nothing.Uncut s) (ho : nothing.after s = nothing) :
    nothing.cut (s ++ ',' :: t) = s :: nothing.cut t := by
  have hcomma : (nothing.after s).cut (',' :: t) = [] :: nothing.cut t := by
    rw [ho, cut_cons, if_pos ⟨rfl, rfl⟩]
  rw [cut_append h hcomma, List.append_nil]

theorem length_le_of_mem_cut (h : f ∈ o.cut s) : f.length ≤ s.length := by
  induction s generalizing o f with
  | nil =>
    rw [cut_nil, List.mem_singleton] at h
    rw [h]
  | cons c s ih =>
    by_cases hc : o = nothing ∧ c = ','
    · rw [cut_cons, if_pos hc] at h
      rcases List.mem_cons.1 h with rfl | h
      · exact Nat.zero_le _
      · exact Nat.le_succ_of_le (ih h)
    · obtain ⟨g, gs, hs⟩ := exists_cut (o.next c) s
      rw [cut_cons_of_not hc hs] at h
      rcases List.mem_cons.1 h with rfl | h
      · exact Nat.succ_le_succ (ih (hs ▸ List.mem_cons_self))
      · exact Nat.le_succ_of_le (ih (hs ▸ List.mem_cons_of_mem _ h))

/-- A part that is as long as the text is the text. -/
theorem uncut_of_mem_cut (h : f ∈ o.cut s) (hlen : s.length ≤ f.length) : o.Uncut s := by
  induction s generalizing o f with
  | nil => trivial
  | cons c s ih =>
    by_cases hc : o = nothing ∧ c = ','
    · rw [cut_cons, if_pos hc] at h
      rcases List.mem_cons.1 h with rfl | h
      · exact absurd hlen (by simp)
      · have := length_le_of_mem_cut h
        rw [List.length_cons] at hlen
        omega
    · obtain ⟨g, gs, hs⟩ := exists_cut (o.next c) s
      rw [cut_cons_of_not hc hs] at h
      refine ⟨hc, ?_⟩
      rcases List.mem_cons.1 h with rfl | h
      · exact ih (hs ▸ List.mem_cons_self) (Nat.le_of_succ_le_succ hlen)
      · have hmem : f ∈ (o.next c).cut s := hs ▸ List.mem_cons_of_mem _ h
        have := length_le_of_mem_cut hmem
        rw [List.length_cons] at hlen
        omega

end Opening

/-! ## The selectors of a list -/

variable {text : String}

theorem splitList_eq (text : String) : splitList text =
    (((Opening.nothing.cut text.toList).map Text.trim).filter (!·.isEmpty)).map String.ofList := rfl

/-- A text among its own selectors is cut nowhere. -/
theorem uncut_of_mem_splitList (h : text ∈ splitList text) : Opening.nothing.Uncut text.toList := by
  rw [splitList_eq] at h
  obtain ⟨part, hpart, heq⟩ := List.mem_map.1 h
  have hpart := (List.mem_filter.1 hpart).1
  rw [show part = text.toList by rw [← heq, String.toList_ofList]] at hpart
  obtain ⟨f, hf, htrim⟩ := List.mem_map.1 hpart
  apply Opening.uncut_of_mem_cut hf
  rw [← htrim]
  exact Text.length_trim_le f

/-- A trimmed text that is cut nowhere is one selector. -/
theorem splitList_of_uncut (htrim : Text.trim text.toList = text.toList) (hne : text ≠ "")
    (h : Opening.nothing.Uncut text.toList) : splitList text = [text] := by
  rw [splitList_eq, Opening.uncut_iff.1 h]
  simp [htrim, hne]

theorem uncut_of_splitList_eq (h : splitList text = [text]) : Opening.nothing.Uncut text.toList := by
  apply uncut_of_mem_splitList
  rw [h]
  exact List.mem_singleton_self text

end AtomicCss.Selector
