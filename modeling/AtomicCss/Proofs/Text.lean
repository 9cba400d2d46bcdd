import AtomicCss.Text
import Mathlib.Data.List.Basic
import Mathlib.Data.List.DropRight

/-! # Cutting and trimming

The fields of a text are what stands between its separators. Fields that hold no separator are
found again when the text is put together (`fields_flatMap`), and the fields of a text put it
together again (`flatMap_fields`). Trimming takes nothing but blanks away (`exists_trim`). -/

namespace AtomicCss.Text

variable {α : Type} {p : α → Bool} {front s rest field : List α} {fs : List (List α)} {c : α}

theorem fields_ne_nil (p : α → Bool) (s : List α) : fields p s ≠ [] := by
  cases s with
  | nil => simp [fields]
  | cons c cs =>
    rw [fields]
    split
    · simp
    · cases fields p cs <;> simp [grow]

theorem not_mem_of_mem_fields {f : List α} (h : f ∈ fields p s) : ∀ c ∈ f, p c = false := by
  induction s generalizing f with
  | nil =>
    rw [fields, List.mem_singleton] at h
    simp [h]
  | cons c cs ih =>
    rw [fields] at h
    split at h
    · rcases List.mem_cons.1 h with rfl | h
      · simp
      · exact ih h
    · rename_i hc
      cases hf : fields p cs with
      | nil => exact absurd hf (fields_ne_nil p cs)
      | cons g gs =>
        rw [hf, grow] at h
        rw [hf] at ih
        rcases List.mem_cons.1 h with rfl | h
        · intro x hx
          rcases List.mem_cons.1 hx with rfl | hx
          · simpa using hc
          · exact ih List.mem_cons_self x hx
        · exact ih (List.mem_cons_of_mem _ h)

/-- What stands in front of the first separator belongs to the first field. -/
theorem fields_append (hfront : ∀ a ∈ front, p a = false) (hs : fields p s = field :: fs) :
    fields p (front ++ s) = (front ++ field) :: fs := by
  induction front with
  | nil => exact hs
  | cons a front ih =>
    obtain ⟨ha, hfront⟩ := List.forall_mem_cons.1 hfront
    simp [fields, ha, ih hfront, grow]

theorem fields_of_none (h : ∀ c ∈ s, p c = false) : fields p s = [s] := by
  have hfields : fields p (s ++ []) = [s ++ []] := fields_append h rfl
  rwa [List.append_nil] at hfields

/-- A field ends at the first separator. -/
theorem fields_append_cons (h : ∀ c ∈ s, p c = false) (hc : p c = true) :
    fields p (s ++ c :: rest) = s :: fields p rest := by
  have hrest : fields p (c :: rest) = [] :: fields p rest := by rw [fields, if_pos hc]
  rw [fields_append h hrest, List.append_nil]

theorem fields_flatMap (hc : p c = true) (h : ∀ f ∈ field :: fs, ∀ a ∈ f, p a = false) :
    fields p (field ++ fs.flatMap (c :: ·)) = field :: fs := by
  induction fs generalizing field with
  | nil => rw [List.flatMap_nil, List.append_nil, fields_of_none (h field List.mem_cons_self)]
  | cons next fs ih =>
    obtain ⟨hfield, hrest⟩ := List.forall_mem_cons.1 h
    rw [List.flatMap_cons, List.cons_append, fields_append_cons hfield hc, ih hrest]

theorem flatMap_fields [BEq α] [LawfulBEq α] (c : α) (s : List α) :
    (fields (· == c) s).flatMap (c :: ·) = c :: s := by
  induction s with
  | nil => rfl
  | cons a s ih =>
    rw [fields]
    split
    · next ha =>
      rw [List.flatMap_cons, ih, eq_of_beq ha]
      rfl
    · cases hs : fields (· == c) s with
      | nil => exact absurd hs (fields_ne_nil _ s)
      | cons f fs =>
        rw [hs, List.flatMap_cons, List.cons_append, List.cons.injEq] at ih
        simp [grow, ih.2]

/-- A separator parts the fields in front of it from those behind it. -/
theorem fields_append_separator (hc : p c = true) :
    fields p (s ++ c :: rest) = fields p s ++ fields p rest := by
  induction s with
  | nil => simp [fields, hc]
  | cons a s ih =>
    rw [List.cons_append, fields, fields, ih]
    split
    · rfl
    · cases hs : fields p s with
      | nil => exact absurd hs (fields_ne_nil p s)
      | cons f fs => rfl

/-- The fields of a text are its longest parts without separators. -/
theorem mem_fields_iff : field ∈ fields p s ↔ ∃ front back, s = front ++ field ++ back ∧
    (∀ a ∈ field, p a = false) ∧ (∀ a ∈ front.getLast?, p a = true) ∧
    ∀ a ∈ back.head?, p a = true := by
  constructor
  · intro h
    -- the text up to its first separator is the first field
    induction hn : s.length using Nat.strongRecOn generalizing s with
    | _ n ih =>
      cases hfind : s.find? p with
      | none =>
        have hs : ∀ a ∈ s, p a = false := by simpa using hfind
        rw [fields_of_none hs, List.mem_singleton] at h
        rw [h]
        exact ⟨[], [], by simp, hs, by simp, by simp⟩
      | some c =>
        obtain ⟨hc, first, rest, rfl, hfirst⟩ := List.find?_eq_some_iff_append.1 hfind
        have hfirst : ∀ a ∈ first, p a = false := by simpa using hfirst
        rw [fields_append_cons hfirst hc] at h
        rcases List.mem_cons.1 h with rfl | h
        · exact ⟨[], c :: rest, rfl, hfirst, by simp, by simpa using hc⟩
        · have hlt : rest.length < n := by
            rw [← hn, List.length_append, List.length_cons]
            omega
          obtain ⟨front, back, rfl, hfield, hfront, hback⟩ := ih rest.length hlt h rfl
          refine ⟨first ++ c :: front, back, by simp, hfield, ?_, hback⟩
          intro a ha
          rw [List.getLast?_append, List.getLast?_cons] at ha
          cases hlast : front.getLast? with
          | none =>
            obtain rfl : c = a := by simpa [hlast] using ha
            exact hc
          | some b =>
            obtain rfl : b = a := by simpa [hlast] using ha
            exact hfront b hlast
  · rintro ⟨front, back, rfl, hfield, hfront, hback⟩
    have hhead : field ∈ fields p (field ++ back) := by
      cases back with
      | nil => rw [List.append_nil, fields_of_none hfield, List.mem_singleton]
      | cons c back =>
        rw [fields_append_cons hfield (hback c rfl)]
        exact List.mem_cons_self
    cases hlast : front.getLast? with
    | none =>
      rw [List.getLast?_eq_none_iff.1 hlast]
      exact hhead
    | some c =>
      obtain ⟨front, rfl⟩ := List.getLast?_eq_some_iff.1 hlast
      rw [List.append_assoc, List.append_assoc, List.singleton_append,
        fields_append_separator (hfront c hlast)]
      exact List.mem_append_right _ hhead

/-- Words without separators are told by the text with a separator in front of each. -/
theorem flatMap_cons_injective {fs' : List (List α)} (hc : p c = true)
    (h : ∀ f ∈ fs, ∀ a ∈ f, p a = false) (h' : ∀ f ∈ fs', ∀ a ∈ f, p a = false)
    (heq : fs.flatMap (c :: ·) = fs'.flatMap (c :: ·)) : fs = fs' := by
  have hfields {fs : List (List α)} (h : ∀ f ∈ fs, ∀ a ∈ f, p a = false) :
      fields p ([] ++ fs.flatMap (c :: ·)) = [] :: fs := by
    apply fields_flatMap hc
    rintro f hf
    rcases List.mem_cons.1 hf with rfl | hf
    · simp
    · exact h f hf
  have hsame := hfields h
  rw [heq, hfields h'] at hsame
  exact (List.cons.inj hsame).2.symm

/-! ## Trimming -/

theorem exists_dropEndWhile (p : Char → Bool) (s : List Char) :
    ∃ back, s = dropEndWhile p s ++ back ∧ ∀ c ∈ back, p c = true :=
  ⟨s.rtakeWhile p, List.rdropWhile_append_rtakeWhile.symm, fun _ => List.mem_rtakeWhile_imp⟩

/-- What is dropped from the end may as well be taken away before. -/
theorem dropEndWhile_append {p : Char → Bool} {s back : List Char} (h : ∀ c ∈ back, p c = true) :
    dropEndWhile p (s ++ back) = dropEndWhile p s := by
  rw [dropEndWhile, List.reverse_append, List.dropWhile_append_of_pos (by simpa using h)]
  rfl

theorem getLast?_dropEndWhile {p : Char → Bool} {s : List Char} {c : Char}
    (h : (dropEndWhile p s).getLast? = some c) : p c = false := by
  have hhead := List.head?_dropWhile_not p s.reverse
  rw [dropEndWhile, List.getLast?_reverse] at h
  simpa [h] using hhead

/-- A member that stays is reached last. -/
theorem dropEndWhile_cons {p : Char → Bool} {c : Char} {s : List Char} (h : p c = false) :
    dropEndWhile p (c :: s) = c :: dropEndWhile p s := by
  rw [dropEndWhile, dropEndWhile, List.reverse_cons, List.dropWhile_append]
  split
  · rename_i hs
    rw [List.isEmpty_iff.1 hs]
    simp [h]
  · simp

/-- Taking away from both ends leaves a part in the middle. -/
theorem exists_dropEnds (p q : Char → Bool) (s : List Char) :
    ∃ front back, s = front ++ dropEndWhile q (s.dropWhile p) ++ back ∧
      (∀ c ∈ front, p c = true) ∧ ∀ c ∈ back, q c = true := by
  obtain ⟨back, hback, hall⟩ := exists_dropEndWhile q (s.dropWhile p)
  refine ⟨s.takeWhile p, back, ?_, fun _ => List.mem_takeWhile_imp, hall⟩
  rw [List.append_assoc, ← hback, List.takeWhile_append_dropWhile]

/-- What is left in the middle has ends that stay. -/
theorem dropEnds_eq_iff {p q : Char → Bool} {s middle : List Char} (hne : middle ≠ [])
    (hhead : ∀ c ∈ middle.head?, p c = false) (hlast : ∀ c ∈ middle.getLast?, q c = false) :
    dropEndWhile q (s.dropWhile p) = middle ↔ ∃ front back, s = front ++ middle ++ back ∧
      (∀ c ∈ front, p c = true) ∧ ∀ c ∈ back, q c = true := by
  constructor
  · rintro rfl
    exact exists_dropEnds p q s
  · rintro ⟨front, back, rfl, hfront, hback⟩
    have hstop : (middle ++ back).dropWhile p = middle ++ back := by
      apply dropWhile_eq_self
      intro c hc
      obtain ⟨a, rest, rfl⟩ := List.exists_cons_of_ne_nil hne
      exact hhead c (by simpa using hc)
    rw [List.append_assoc, List.dropWhile_append_of_pos hfront, hstop, dropEndWhile_append hback,
      dropEndWhile_eq_self fun c hc => hlast c hc]

theorem head?_dropEnds {p q : Char → Bool} {s : List Char} {c : Char}
    (h : (dropEndWhile q (s.dropWhile p)).head? = some c) : p c = false := by
  obtain ⟨rest, hrest⟩ := dropEndWhile_prefix q (s.dropWhile p)
  have hhead : (s.dropWhile p).head? = some c := by
    rw [← hrest, List.head?_append, h]
    rfl
  simpa [hhead] using List.head?_dropWhile_not p s

/-- A text is trimmed by taking blanks away from its ends. -/
theorem exists_trim (s : List Char) : ∃ front back, s = front ++ trim s ++ back ∧
    (∀ c ∈ front, isBlank c = true) ∧ ∀ c ∈ back, isBlank c = true :=
  exists_dropEnds isBlank isBlank s

theorem length_trim_le (s : List Char) : (trim s).length ≤ s.length := by
  obtain ⟨front, back, hs, -⟩ := exists_trim s
  have := congrArg List.length hs
  simp only [List.length_append] at this
  omega

end AtomicCss.Text
