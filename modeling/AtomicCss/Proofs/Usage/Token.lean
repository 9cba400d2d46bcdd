import AtomicCss.Proofs.Text
import AtomicCss.Usage.Token
import Mathlib

/-! # The tokens of a content

A content is cut at delimiters into runs, and each run leads to tokens of its own
(`mem_tokens_iff`). So the tokens of a content that is put together from two are those of both, and a
class that stands alone is found (`tokens_delimited`). Within a run, `Offers` says exactly between which
neighbours a name is found (`mem_tokens_iff_offers`). -/

namespace AtomicCss.Usage

/-! ## Lists without repetitions -/

section EraseReps

variable {α : Type} [BEq α] [LawfulBEq α] {a x : α}

theorem mem_eraseRepsBy_loop (l acc : List α) :
    x ∈ List.eraseRepsBy.loop (· == ·) a l acc ↔ x = a ∨ x ∈ l ∨ x ∈ acc := by
  induction l generalizing a acc with
  | nil => simp [List.eraseRepsBy.loop, or_comm]
  | cons b l ih =>
    rw [List.eraseRepsBy.loop]
    cases hab : a == b with
    | true =>
      simp only [ih, List.mem_cons, eq_of_beq hab]
      tauto
    | false =>
      simp only [ih, List.mem_cons]
      tauto

theorem mem_eraseReps {l : List α} : x ∈ l.eraseReps ↔ x ∈ l := by
  cases l with
  | nil => rfl
  | cons b l =>
    rw [List.eraseReps, List.eraseRepsBy, mem_eraseRepsBy_loop]
    simp

/-- Without its repetitions, an ordered list is strictly ordered. -/
theorem pairwise_eraseReps {l : List String} (h : l.Pairwise (· ≤ ·)) :
    l.eraseReps.Pairwise (· < ·) := by
  have hloop (a : String) (l acc : List String) (hacc : (a :: acc).Pairwise (· > ·))
      (hl : (a :: l).Pairwise (· ≤ ·)) :
      (List.eraseRepsBy.loop (· == ·) a l acc).Pairwise (· < ·) := by
    induction l generalizing a acc with
    | nil => exact List.pairwise_reverse.2 hacc
    | cons b l ih =>
      obtain ⟨ha, hb⟩ := List.pairwise_cons.1 hl
      rw [List.eraseRepsBy.loop]
      cases hab : a == b with
      | true =>
        rw [← eq_of_beq hab] at hb
        exact ih a acc hacc hb
      | false =>
        have hlt : a < b := lt_of_le_of_ne (ha b List.mem_cons_self) (by simpa using hab)
        refine ih b (a :: acc) (List.pairwise_cons.2 ⟨?_, hacc⟩) hb
        intro x hx
        rcases List.mem_cons.1 hx with rfl | hx
        · exact hlt
        · exact lt_trans ((List.pairwise_cons.1 hacc).1 x hx) hlt
  cases l with
  | nil => exact .nil
  | cons a l => exact hloop a l [] (List.pairwise_singleton _ _) h

/-- Sorted and without its repetitions, a list is strictly ordered. -/
theorem pairwise_eraseReps_mergeSort (l : List String) :
    (l.mergeSort (· ≤ ·)).eraseReps.Pairwise (· < ·) := by
  apply pairwise_eraseReps
  have hsorted := @List.pairwise_mergeSort _ (fun a b : String => decide (a ≤ b))
    (fun a b c hab hbc => by simpa using le_trans (by simpa using hab) (by simpa using hbc))
    (fun a b => by simpa using le_total a b) l
  simpa using hsorted

end EraseReps

/-! ## Runs -/

variable {a b c l m r s u v x y run content : List Char} {d : Char} {t : String}

/-- A longest part of a content that holds nothing but characters of tokens. -/
structure IsRun (run content : List Char) : Prop where
  ne_nil : run ≠ []
  chars : ∀ c ∈ run, isTokenChar c = true
  longest : ∃ front back, content = front ++ run ++ back ∧
    (∀ c ∈ front.getLast?, isTokenChar c = false) ∧ ∀ c ∈ back.head?, isTokenChar c = false

theorem mem_runs_iff : run ∈ runs content ↔ IsRun run content := by
  rw [runs, List.mem_filter, Text.mem_fields_iff]
  simp only [Bool.not_eq_eq_eq_not, Bool.not_false, Bool.not_true, List.isEmpty_eq_false_iff]
  constructor
  · rintro ⟨⟨front, back, heq, hchars, hfront, hback⟩, hne⟩
    exact ⟨hne, hchars, front, back, heq, hfront, hback⟩
  · rintro ⟨hne, hchars, front, back, heq, hfront, hback⟩
    exact ⟨⟨front, back, heq, hchars, hfront, hback⟩, hne⟩

theorem runs_append (hd : isTokenChar d = false) : runs (a ++ d :: b) = runs a ++ runs b := by
  rw [runs, Text.fields_append_separator (by simpa using hd), List.filter_append]
  rfl

theorem mem_tokens_iff {content : String} : t ∈ tokens content ↔
    ∃ run, IsRun run content.toList ∧ t.toList ∈ candidates run ∧ isToken t.toList = true := by
  simp only [tokens, mem_eraseReps, List.mem_mergeSort, List.mem_map, List.mem_filter,
    List.mem_flatMap, mem_runs_iff]
  constructor
  · rintro ⟨m, ⟨⟨run, hrun, hm⟩, htoken⟩, rfl⟩
    rw [String.toList_ofList]
    exact ⟨run, hrun, hm, htoken⟩
  · rintro ⟨run, hrun, hm, htoken⟩
    exact ⟨t.toList, ⟨⟨run, hrun, hm⟩, htoken⟩, String.ofList_toList⟩

/-! ## Candidates -/

/-- A text with a letter, and without punctuation at its ends that belongs to no class. -/
structure Clean (s : List Char) : Prop where
  letter : isToken s = true
  front : ∀ c ∈ s.head?, isLeading c = false
  back : ∀ c ∈ s.getLast?, isTrailing c = false

theorem Clean.ne_nil (h : Clean c) : c ≠ [] := by
  rintro rfl
  simpa [isToken] using h.letter

/-- Punctuation in front of a run, hyphens included. -/
def isMark (c : Char) : Bool := isLeading c || c == '-'

theorem signed_eq_iff (hc : Clean c) : signed s = c ↔ ∃ front back, s = front ++ c ++ back ∧
    (∀ a ∈ front, isLeading a = true) ∧ ∀ a ∈ back, isTrailing a = true :=
  Text.dropEnds_eq_iff hc.ne_nil hc.front hc.back

theorem bare_eq_iff (hc : Clean c) (hsign : ∀ a ∈ c.head?, a ≠ '-') :
    bare s = c ↔ ∃ front back, s = front ++ c ++ back ∧
      (∀ a ∈ front, isMark a = true) ∧ ∀ a ∈ back, isTrailing a = true := by
  refine Text.dropEnds_eq_iff hc.ne_nil ?_ hc.back
  intro a ha
  simpa [hc.front a ha] using hsign a ha

/-- A name with its sign is not found where signs are taken away. -/
theorem head?_bare (ha : d ∈ (bare s).head?) : isMark d = false :=
  Text.head?_dropEnds ha

theorem clean_signed (h : isToken (signed s) = true) : Clean (signed s) :=
  ⟨h, fun _ => Text.head?_dropEnds, fun _ => Text.getLast?_dropEndWhile⟩

theorem clean_bare (h : isToken (bare s) = true) : Clean (bare s) where
  letter := h
  front c hc := by
    have := head?_bare hc
    simp only [isMark, Bool.or_eq_false_iff] at this
    exact this.1
  back _ := Text.getLast?_dropEndWhile

theorem infix_of_signed (s : List Char) : signed s <:+: s := by
  obtain ⟨front, back, heq, -⟩ := Text.exists_dropEnds isLeading isTrailing s
  exact ⟨front, back, heq.symm⟩

theorem infix_of_bare (s : List Char) : bare s <:+: s := by
  obtain ⟨front, back, heq, -⟩ :=
    Text.exists_dropEnds (fun c => isLeading c || c == '-') isTrailing s
  exact ⟨front, back, heq.symm⟩

theorem mem_afterColons_iff : u ∈ afterColons s ↔ ∃ front, s = front ++ ':' :: u := by
  induction s with
  | nil => simp [afterColons]
  | cons d s ih =>
    rw [afterColons]
    constructor
    · intro h
      split at h
      · rename_i hd
        rcases List.mem_cons.1 h with rfl | h
        · exact ⟨[], by rw [hd]; rfl⟩
        · obtain ⟨front, rfl⟩ := ih.1 h
          exact ⟨d :: front, rfl⟩
      · obtain ⟨front, rfl⟩ := ih.1 h
        exact ⟨d :: front, rfl⟩
    · rintro ⟨front, heq⟩
      cases front with
      | nil =>
        obtain ⟨rfl, rfl⟩ := List.cons.inj heq
        simp
      | cons d' front =>
        obtain ⟨rfl, rfl⟩ := List.cons.inj heq
        have hmem : u ∈ afterColons (front ++ ':' :: u) := ih.2 ⟨front, rfl⟩
        split
        · exact List.mem_cons_of_mem _ hmem
        · exact hmem

theorem mem_candidates_iff : m ∈ candidates run ↔ m = bare run ∨ m = signed run ∨
    ('.' ∈ bare run ∧ ∃ piece ∈ Text.fields (· == '.') (bare run), bare piece = m) ∨
    ∃ rest ∈ afterColons (bare run), bare rest = m := by
  simp only [candidates, List.cons_append, List.mem_cons, List.mem_append, List.mem_map]
  by_cases hdot : '.' ∈ bare run <;> simp [hdot]

/-- What a run leads to is a part of it without punctuation around. -/
theorem exists_of_mem_candidates (h : m ∈ candidates run) :
    ∃ part, part <:+: run ∧ (m = bare part ∨ m = signed part) := by
  rcases mem_candidates_iff.1 h with rfl | rfl | ⟨-, piece, hpiece, rfl⟩ | ⟨rest, hrest, rfl⟩
  · exact ⟨run, List.infix_refl run, .inl rfl⟩
  · exact ⟨run, List.infix_refl run, .inr rfl⟩
  · obtain ⟨front, back, heq, -⟩ := Text.mem_fields_iff.1 hpiece
    have hwithin : piece <:+: bare run := ⟨front, back, heq.symm⟩
    exact ⟨piece, hwithin.trans (infix_of_bare run), .inl rfl⟩
  · obtain ⟨front, heq⟩ := mem_afterColons_iff.1 hrest
    have hwithin : rest <:+: bare run := ⟨front ++ [':'], [], by simp [heq]⟩
    exact ⟨rest, hwithin.trans (infix_of_bare run), .inl rfl⟩

theorem clean_of_mem_candidates (h : m ∈ candidates run) (htoken : isToken m = true) :
    m <:+: run ∧ Clean m := by
  obtain ⟨part, hpart, rfl | rfl⟩ := exists_of_mem_candidates h
  · exact ⟨(infix_of_bare part).trans hpart, clean_bare htoken⟩
  · exact ⟨(infix_of_signed part).trans hpart, clean_signed htoken⟩

/-! ## Delimited classes -/

/-- **Delimiters part the tokens of a content, and a class between delimiters is found.** Tokens are
listed in order and once each. The tokens of a content with a delimiter are those of its two sides, a
clean name is a token of itself, and every token is a clean part of the content. -/
theorem tokens_delimited :
    (∀ content, (tokens content).Pairwise (· < ·)) ∧
    (∀ (a b : String) (d : Char), isTokenChar d = false → ∀ t,
      t ∈ tokens (a ++ d.toString ++ b) ↔ t ∈ tokens a ∨ t ∈ tokens b) ∧
    (∀ name : String, (∀ c ∈ name.toList, isTokenChar c = true) → Clean name.toList →
      name ∈ tokens name) ∧
    ∀ content t, t ∈ tokens content → t.toList <:+: content.toList ∧ Clean t.toList := by
  refine ⟨fun content => pairwise_eraseReps_mergeSort _, ?delimiter, ?name, ?part⟩
  case delimiter =>
    intro a b d hd t
    have htext : (a ++ d.toString ++ b).toList = a.toList ++ d :: b.toList := by simp
    simp only [mem_tokens_iff, htext, ← mem_runs_iff, runs_append hd, List.mem_append, or_and_right,
      exists_or]
  case name =>
    intro name hchars hclean
    have hrun : IsRun name.toList name.toList :=
      ⟨hclean.ne_nil, hchars, [], [], by simp, by simp, by simp⟩
    have hsigned : signed name.toList = name.toList :=
      (signed_eq_iff hclean).2 ⟨[], [], by simp, by simp, by simp⟩
    exact mem_tokens_iff.2
      ⟨_, hrun, mem_candidates_iff.2 (.inr (.inl hsigned.symm)), hclean.letter⟩
  case part =>
    intro content t ht
    obtain ⟨run, hrun, hm, htoken⟩ := mem_tokens_iff.1 ht
    obtain ⟨front, back, heq, -⟩ := hrun.longest
    obtain ⟨hwithin, hclean⟩ := clean_of_mem_candidates hm htoken
    exact ⟨hwithin.trans ⟨front, back, heq.symm⟩, hclean⟩

/-- The class `-m:sm` is a token behind a space, and a token of a text with a quote in it is one of the
text on either side. -/
theorem tokens_delimited_margin :
    "-m:sm" ∈ tokens ("class" ++ ' '.toString ++ "-m:sm") ∧
    ∀ t, t ∈ tokens ("card" ++ '"'.toString ++ "m:sm") ↔ t ∈ tokens "card" ∨ t ∈ tokens "m:sm" := by
  obtain ⟨-, hdelimiter, hname, -⟩ := tokens_delimited
  refine ⟨(hdelimiter _ _ ' ' (by simp [isTokenChar]) _).2 (.inr (hname "-m:sm" ?_ ⟨?_, ?_, ?_⟩)), ?_⟩
  · simp [isTokenChar]
  · decide
  · simp [isLeading]
  · simp [isTrailing]
  · exact hdelimiter _ _ '"' (by simp [isTokenChar])

/-! ## Names inside of runs -/

/-- Behind the last dot of a run's front, there is only punctuation. -/
def OpensPiece (front : List Char) : Prop :=
  ∃ before marks, front = before ++ marks ∧ (∀ a ∈ before.getLast?, a = '.') ∧
    ∀ a ∈ marks, isMark a = true

/-- In front of the first dot of a run's back, there is only punctuation. -/
def ClosesPiece (back : List Char) : Prop :=
  ∃ marks behind, back = marks ++ behind ∧ (∀ a ∈ behind.head?, a = '.') ∧
    ∀ a ∈ marks, isTrailing a = true

/-- How a name comes to be found between the front and the back of its run. -/
inductive Offers (front name back : List Char) : Prop
  /-- As the run itself, with its sign. -/
  | signed (hfront : ∀ a ∈ front, isLeading a = true) (hback : ∀ a ∈ back, isTrailing a = true)
  /-- As a piece between dots. -/
  | piece (hsign : ∀ a ∈ name.head?, a ≠ '-') (hfront : OpensPiece front) (hback : ClosesPiece back)
  /-- As what stands behind a colon, to the end of the run. -/
  | rest (hsign : ∀ a ∈ name.head?, a ≠ '-')
      (hfront : ∃ before marks, front = before ++ ':' :: marks ∧ ∀ a ∈ marks, isMark a = true)
      (hback : ∀ a ∈ back, isTrailing a = true)

/-- What may be dropped in front of a piece is dropped without cutting into it, unless nothing else is
there. What is left has no dot behind its last one. -/
theorem exists_dropWhile {p : Char → Bool} (hu : ∀ a ∈ u.getLast?, a = '.')
    (hm : ∀ a ∈ m, p a = true) : ∃ before marks, (u ++ m).dropWhile p = before ++ marks ∧
      (∀ a ∈ before.getLast?, a = '.') ∧ (∀ a ∈ marks, p a = true) ∧ '.' ∉ marks := by
  rw [List.dropWhile_append]
  split
  · exact ⟨[], [], List.dropWhile_eq_nil_iff.2 hm, by simp, by simp, by simp⟩
  · rename_i hne
    obtain ⟨marks, hmarks, hall⟩ := Text.exists_dropEndWhile (· != '.') m
    refine ⟨u.dropWhile p ++ Text.dropEndWhile (· != '.') m, marks, ?_, ?_, ?_, ?_⟩
    · rw [List.append_assoc, ← hmarks]
    · intro a ha
      rw [List.getLast?_append] at ha
      cases hlast : (Text.dropEndWhile (· != '.') m).getLast? with
      | none =>
        rw [hlast, Option.none_or] at ha
        obtain ⟨front, hfront⟩ := List.dropWhile_suffix (l := u) p
        apply hu
        rw [← hfront, List.getLast?_append_of_ne_nil _ (by simpa using hne)]
        exact ha
      | some b =>
        obtain rfl : b = a := by simpa [hlast] using ha
        simpa using Text.getLast?_dropEndWhile hlast
    · intro a ha
      rw [hmarks] at hm
      exact hm a (List.mem_append_right _ ha)
    · intro hdot
      simpa using hall '.' hdot

theorem OpensPiece.dropWhile (h : OpensPiece x) : ∃ before marks,
    x.dropWhile isMark = before ++ marks ∧ (∀ a ∈ before.getLast?, a = '.') ∧
    (∀ a ∈ marks, isMark a = true) ∧ '.' ∉ marks := by
  obtain ⟨u, m, rfl, hu, hm⟩ := h
  exact exists_dropWhile hu hm

theorem ClosesPiece.dropEndWhile (h : ClosesPiece y) : ∃ marks behind,
    Text.dropEndWhile isTrailing y = marks ++ behind ∧ (∀ a ∈ behind.head?, a = '.') ∧
    (∀ a ∈ marks, isTrailing a = true) ∧ '.' ∉ marks := by
  obtain ⟨m, v, rfl, hv, hm⟩ := h
  -- read backwards, it is the front of a piece
  obtain ⟨before, marks, heq, hbefore, hmarks, hdot⟩ :=
    exists_dropWhile (u := v.reverse) (m := m.reverse) (by simpa using hv) (by simpa using hm)
  refine ⟨marks.reverse, before.reverse, ?_, by simpa using hbefore, by simpa using hmarks,
    by simpa using hdot⟩
  rw [Text.dropEndWhile, List.reverse_append, heq, List.reverse_append]

/-- The run around a name, without the punctuation around the run. -/
theorem bare_append (hc : Clean c) (hsign : ∀ a ∈ c.head?, a ≠ '-') :
    bare (x ++ c ++ y) = x.dropWhile isMark ++ c ++ Text.dropEndWhile isTrailing y := by
  obtain ⟨back, hy, hback⟩ := Text.exists_dropEndWhile isTrailing y
  refine (Text.dropEnds_eq_iff (by simp [hc.ne_nil]) ?_ ?_).2
    ⟨x.takeWhile isMark, back, ?_, fun _ => List.mem_takeWhile_imp, hback⟩
  · intro a ha
    cases hx : (x.dropWhile isMark).head? with
    | none =>
      have hnil : x.dropWhile isMark = [] := List.head?_eq_none_iff.1 hx
      have ha : a ∈ c.head? := by
        obtain ⟨b, rest, rfl⟩ := List.exists_cons_of_ne_nil hc.ne_nil
        simpa [hnil] using ha
      simpa [hc.front a ha] using hsign a ha
    | some b =>
      obtain rfl : b = a := by simpa [List.head?_append, hx] using ha
      show isMark b = false
      simpa [hx] using List.head?_dropWhile_not isMark x
  · intro a ha
    cases hlast : (Text.dropEndWhile isTrailing y).getLast? with
    | none =>
      have hnil : Text.dropEndWhile isTrailing y = [] := List.getLast?_eq_none_iff.1 hlast
      have ha : a ∈ c.getLast? := by
        rw [hnil, List.append_nil, List.getLast?_append_of_ne_nil _ hc.ne_nil] at ha
        exact ha
      exact hc.back a ha
    | some b =>
      obtain rfl : b = a := by simpa [List.getLast?_append, hlast] using ha
      exact Text.getLast?_dropEndWhile hlast
  · have hx := List.takeWhile_append_dropWhile (p := isMark) (l := x)
    calc x ++ c ++ y
        = x.takeWhile isMark ++ x.dropWhile isMark ++ c ++
            (Text.dropEndWhile isTrailing y ++ back) := by rw [hx, ← hy]
      _ = _ := by simp only [List.append_assoc]

theorem bare_bare (h : isToken (bare s) = true) : bare (bare s) = bare s := by
  refine (bare_eq_iff (clean_bare h) ?_).2 ⟨[], [], by simp, by simp, by simp⟩
  rintro a ha rfl
  simpa [isMark] using head?_bare ha

theorem mem_candidates_of_piece (hc : Clean c) (hdot : '.' ∉ c) (hsign : ∀ a ∈ c.head?, a ≠ '-')
    (hx : OpensPiece x) (hy : ClosesPiece y) : c ∈ candidates (x ++ c ++ y) := by
  obtain ⟨u, l, hu, hlast, hl, hldot⟩ := hx.dropWhile
  obtain ⟨r, v, hv, hhead, hr, hrdot⟩ := hy.dropEndWhile
  have hbare : bare (x ++ c ++ y) = u ++ (l ++ c ++ r) ++ v := by
    rw [bare_append hc hsign, hu, hv]
    simp only [List.append_assoc]
  have hpiece : bare (l ++ c ++ r) = c := (bare_eq_iff hc hsign).2 ⟨l, r, rfl, hl, hr⟩
  rw [mem_candidates_iff]
  by_cases hd : '.' ∈ bare (x ++ c ++ y)
  · refine .inr (.inr (.inl ⟨hd, l ++ c ++ r, Text.mem_fields_iff.2 ?_, hpiece⟩))
    refine ⟨u, v, hbare, ?_, by simpa using hlast, by simpa using hhead⟩
    intro a ha
    rw [beq_eq_false_iff_ne]
    rintro rfl
    simp [hldot, hdot, hrdot] at ha
  · -- without a dot, the run is this one piece
    have hu : u = [] := by
      rw [← List.getLast?_eq_none_iff, Option.eq_none_iff_forall_not_mem]
      intro a ha
      obtain rfl := hlast a ha
      exact hd (hbare ▸ by simp [List.mem_of_getLast? ha])
    have hv : v = [] := by
      rw [← List.head?_eq_none_iff, Option.eq_none_iff_forall_not_mem]
      intro a ha
      obtain rfl := hhead a ha
      exact hd (hbare ▸ by simp [List.mem_of_mem_head? ha])
    have hletter : isToken (bare (x ++ c ++ y)) = true := by
      rw [hbare, isToken, List.any_append, List.any_append, List.any_append, List.any_append,
        show c.any Char.isAlpha = true from hc.letter]
      simp
    left
    rw [← bare_bare hletter, hbare, hu, hv, List.nil_append, List.append_nil, hpiece]

theorem mem_candidates_of_rest (hc : Clean c) (hsign : ∀ a ∈ c.head?, a ≠ '-')
    (hl : ∀ a ∈ l, isMark a = true) (hy : ∀ a ∈ y, isTrailing a = true) :
    c ∈ candidates (u ++ ':' :: l ++ c ++ y) := by
  have hbare := bare_append (x := u ++ ':' :: l) (y := y) hc hsign
  have hy : Text.dropEndWhile isTrailing y = [] := by
    rw [Text.dropEndWhile, List.dropWhile_eq_nil_iff.2 (by simpa using hy), List.reverse_nil]
  have hmarks : ∀ a ∈ ':' :: l, isMark a = true := List.forall_mem_cons.2 ⟨rfl, hl⟩
  rw [hy, List.append_nil, List.dropWhile_append, List.dropWhile_eq_nil_iff.2 hmarks] at hbare
  rw [mem_candidates_iff]
  split at hbare
  · exact .inl hbare.symm
  · refine .inr (.inr (.inr ⟨l ++ c, mem_afterColons_iff.2 ⟨u.dropWhile isMark, ?_⟩, ?_⟩))
    · simpa using hbare
    · exact (bare_eq_iff hc hsign).2 ⟨l, [], by simp, hl, by simp⟩

theorem mem_candidates_of_offers (hc : Clean c) (hdot : '.' ∉ c) (h : Offers x c y) :
    c ∈ candidates (x ++ c ++ y) := by
  cases h with
  | signed hx hy =>
    exact mem_candidates_iff.2 (.inr (.inl ((signed_eq_iff hc).2 ⟨x, y, rfl, hx, hy⟩).symm))
  | piece hsign hx hy => exact mem_candidates_of_piece hc hdot hsign hx hy
  | rest hsign hx hy =>
    obtain ⟨u, l, rfl, hl⟩ := hx
    exact mem_candidates_of_rest hc hsign hl hy

/-- Punctuation in front of a run does not hide the front of a piece. -/
theorem opensPiece_append (hx : ∀ a ∈ x, isMark a = true) (hu : ∀ a ∈ u.getLast?, a = '.')
    (hl : ∀ a ∈ l, isMark a = true) : OpensPiece (x ++ u ++ l) := by
  cases hlast : u.getLast? with
  | none =>
    rw [List.getLast?_eq_none_iff.1 hlast]
    exact ⟨[], x ++ l, by simp, by simp, by simpa [or_imp, forall_and] using ⟨hx, hl⟩⟩
  | some a =>
    refine ⟨x ++ u, l, by simp, ?_, hl⟩
    rw [List.getLast?_append, hlast]
    simpa using hu a hlast

theorem closesPiece_append (hr : ∀ a ∈ r, isTrailing a = true) (hv : ∀ a ∈ v.head?, a = '.')
    (hy : ∀ a ∈ y, isTrailing a = true) : ClosesPiece (r ++ v ++ y) := by
  cases hhead : v.head? with
  | none =>
    rw [List.head?_eq_none_iff.1 hhead]
    exact ⟨r ++ y, [], by simp, by simp, by simpa [or_imp, forall_and] using ⟨hr, hy⟩⟩
  | some a =>
    refine ⟨r, v ++ y, by simp, ?_, hr⟩
    rw [List.head?_append, hhead]
    simpa using hv a hhead

theorem offers_of_mem_candidates (hc : Clean c) (h : c ∈ candidates run) :
    ∃ front back, run = front ++ c ++ back ∧ Offers front c back := by
  have hsign {s : List Char} (hs : bare s = c) : ∀ a ∈ c.head?, a ≠ '-' := by
    rintro a ha rfl
    rw [← hs] at ha
    simpa [isMark] using head?_bare ha
  obtain ⟨before, behind, hrun, hbefore, hbehind⟩ :=
    Text.exists_dropEnds isMark isTrailing run
  have hrun : run = before ++ bare run ++ behind := hrun
  rcases mem_candidates_iff.1 h with hm | hm | ⟨-, piece, hpiece, hm⟩ | ⟨rest, hrest, hm⟩
  · rw [← hm] at hrun
    have hopens : OpensPiece before := ⟨[], before, rfl, by simp, hbefore⟩
    exact ⟨before, behind, hrun,
      .piece (hsign hm.symm) hopens ⟨behind, [], by simp, by simp, hbehind⟩⟩
  · obtain ⟨front, back, heq, hfront, hback⟩ := (signed_eq_iff hc).1 hm.symm
    exact ⟨front, back, heq, .signed hfront hback⟩
  · obtain ⟨u, v, hsplit, -, hu, hv⟩ := Text.mem_fields_iff.1 hpiece
    obtain ⟨l, r, heq, hl, hr⟩ := (bare_eq_iff hc (hsign hm)).1 hm
    rw [hsplit, heq] at hrun
    exact ⟨before ++ u ++ l, r ++ v ++ behind, by rw [hrun]; simp, .piece (hsign hm)
      (opensPiece_append hbefore (by simpa using hu) hl)
      (closesPiece_append hr (by simpa using hv) hbehind)⟩
  · obtain ⟨u, hsplit⟩ := mem_afterColons_iff.1 hrest
    obtain ⟨l, r, heq, hl, hr⟩ := (bare_eq_iff hc (hsign hm)).1 hm
    rw [hsplit, heq] at hrun
    refine ⟨before ++ u ++ ':' :: l, r ++ behind, by rw [hrun]; simp, .rest (hsign hm) ?_ ?_⟩
    · exact ⟨before ++ u, l, rfl, hl⟩
    · simpa [or_imp, forall_and] using ⟨hr, hbehind⟩

/-- **Which names without dots are tokens of a content.** -/
theorem mem_tokens_iff_offers {content : String} (hc : Clean c) (hdot : '.' ∉ c) :
    String.ofList c ∈ tokens content ↔
      ∃ front back, IsRun (front ++ c ++ back) content.toList ∧ Offers front c back := by
  rw [mem_tokens_iff, String.toList_ofList]
  constructor
  · rintro ⟨run, hrun, hm, -⟩
    obtain ⟨front, back, rfl, hoffers⟩ := offers_of_mem_candidates hc hm
    exact ⟨front, back, hrun, hoffers⟩
  · rintro ⟨front, back, hrun, hoffers⟩
    exact ⟨_, hrun, mem_candidates_of_offers hc hdot hoffers, hc.letter⟩

/-- Between a front that ends with a colon or a dot and a back that starts with a dot. -/
structure Between (front back : List Char) : Prop where
  front : ∀ a ∈ front.getLast?, isLeading a = true
  back : ∀ a ∈ back.head?, a = '.'

/-- Behind a directive or in a dotted shorthand, a name is offered with its sign if there is only
punctuation around it, and without a sign if it is a piece of its own or ends the run. -/
theorem Between.offers_iff (h : Between x y) : Offers x c y ↔
    ((∀ a ∈ x, isLeading a = true) ∧ ∀ a ∈ y, isTrailing a = true) ∨
    ((∀ a ∈ c.head?, a ≠ '-') ∧ (OpensPiece x ∨ ∀ a ∈ y, isTrailing a = true)) := by
  constructor
  · rintro (⟨hx, hy⟩ | ⟨hsign, hx, -⟩ | ⟨hsign, -, hy⟩)
    · exact .inl ⟨hx, hy⟩
    · exact .inr ⟨hsign, .inl hx⟩
    · exact .inr ⟨hsign, .inr hy⟩
  · have hcloses : ClosesPiece y := ⟨[], y, rfl, h.back, by simp⟩
    rintro (⟨hx, hy⟩ | ⟨hsign, hx | hy⟩)
    · exact .signed hx hy
    · exact .piece hsign hx hcloses
    · rcases List.eq_nil_or_concat x with rfl | ⟨before, a, rfl⟩
      · exact .piece hsign ⟨[], [], rfl, by simp, by simp⟩ hcloses
      · have ha : isLeading a = true := h.front a (by simp)
        simp only [isLeading, Bool.or_eq_true, beq_iff_eq] at ha
        rcases ha with rfl | rfl
        · exact .rest hsign ⟨before, [], by simp, by simp⟩ hy
        · exact .piece hsign ⟨before ++ ['.'], [], by simp, by simp, by simp⟩ hcloses

/-- **Which names are found behind directives and in dotted shorthands.** A name without dots between
the front and the back of its run is a token of the content if nothing but punctuation is around it, or
if it has no sign and is a piece of its own or the end of the run. In every other case this run does not
offer the name, and it is a token only if some run does. -/
theorem tokens_between (content : String) (front name back : List Char)
    (hrun : IsRun (front ++ name ++ back) content.toList) (hclean : Clean name) (hdot : '.' ∉ name)
    (hbetween : Between front back) :
    let found := ((∀ a ∈ front, isLeading a = true) ∧ ∀ a ∈ back, isTrailing a = true) ∨
      ((∀ a ∈ name.head?, a ≠ '-') ∧ (OpensPiece front ∨ ∀ a ∈ back, isTrailing a = true))
    (found → String.ofList name ∈ tokens content) ∧
    (¬ found → ¬ Offers front name back) ∧
    (String.ofList name ∈ tokens content ↔
      ∃ front back, IsRun (front ++ name ++ back) content.toList ∧ Offers front name back) := by
  have hoffers := hbetween.offers_iff (c := name)
  refine ⟨fun h => ?_, fun h => mt hoffers.1 h, mem_tokens_iff_offers hclean hdot⟩
  exact (mem_tokens_iff_offers hclean hdot).2 ⟨front, back, hrun, hoffers.2 h⟩

/-- In the text `see .md:card.lg`, the name `md:card` is found, in `class:-m:sm` the name `-m:sm` is
not, and in `class:badge.x` the name `badge` is not. -/
theorem tokens_between_card :
    "md:card" ∈ tokens "see .md:card.lg" ∧
    "-m:sm" ∉ tokens "class:-m:sm" ∧ "badge" ∉ tokens "class:badge.x" := by
  have hfound {t content : String} : t ∈ tokens content ↔
      t.toList ∈ (runs content.toList).flatMap candidates ∧ isToken t.toList = true := by
    simp only [mem_tokens_iff, ← mem_runs_iff, List.mem_flatMap]
    tauto
  refine ⟨?_, ?_, ?_⟩
  · have hname : String.ofList ['m', 'd', ':', 'c', 'a', 'r', 'd'] = "md:card" := rfl
    have hcontent : "see .md:card.lg".toList = ['s', 'e', 'e', ' '] ++
        (['.'] ++ ['m', 'd', ':', 'c', 'a', 'r', 'd'] ++ ['.', 'l', 'g']) ++ [] := by simp
    rw [← hname]
    refine (tokens_between _ ['.'] _ ['.', 'l', 'g'] ?_ ⟨?_, ?_, ?_⟩ ?_ ⟨?_, ?_⟩).1 ?_
    · exact ⟨by simp, by simp [isTokenChar], _, _, hcontent, by simp [isTokenChar], by simp⟩
    · rfl
    · simp [isLeading]
    · simp [isTrailing]
    · simp
    · simp [isLeading]
    · simp
    · exact .inr ⟨by simp, .inl ⟨['.'], [], rfl, by simp, by simp⟩⟩
  · rw [hfound]
    decide +kernel
  · rw [hfound]
    decide +kernel

end AtomicCss.Usage
