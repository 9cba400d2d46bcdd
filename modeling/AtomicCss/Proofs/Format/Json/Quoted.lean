import AtomicCss.Format.Json.Quoted

/-!
# Strings between quotes

A string that was written between quotes is read back, whatever stands behind it (`pieces_write`).
-/

namespace AtomicCss.Json.Quoted

/-- A piece is read as a character, whatever stands behind it. -/
def StandsFor (p : Piece) (c : Char) : Prop := ∀ ps, text? (p :: ps) = (text? ps).map (c :: ·)

theorem standsFor_char (c : Char) : StandsFor (.char c) c := fun _ => rfl

/-- The unit of a control character is no half of a surrogate pair. -/
theorem standsFor_unit {c : Char} (h : c.toNat < 0x20) : StandsFor (.unit c.toNat) c := by
  intro ps
  have hlow : isLowHalf c.toNat = false := by
    simp only [isLowHalf, Bool.and_eq_false_iff, decide_eq_false_iff_not]
    omega
  have hhigh : isHighHalf c.toNat = false := by
    simp only [isHighHalf, Bool.and_eq_false_iff, decide_eq_false_iff_not]
    omega
  rw [text?.eq_def]
  simp only [hlow, hhigh, Char.ofNat_toNat]
  rfl

/-- The three ways to write a character: by a letter, by its code, and as it stands. -/
theorem escape_cases (c : Char) :
    (∃ letter, shortEscape? letter = some c ∧ escape c = ['\\', letter]) ∨
    (c.toNat < 0x20 ∧
      escape c = ['\\', 'u', '0', '0', Hex.digit (c.toNat / 16), Hex.digit (c.toNat % 16)]) ∨
    (¬ c.toNat < 0x20 ∧ c ≠ '"' ∧ c ≠ '\\' ∧ escape c = [c]) := by
  unfold escape
  split
  · next h => exact .inl ⟨'"', by subst h; decide, rfl⟩
  split
  · next h => exact .inl ⟨'\\', by subst h; decide, rfl⟩
  split
  · next h => exact .inl ⟨'b', by subst h; decide, rfl⟩
  split
  · next h => exact .inl ⟨'f', by subst h; decide, rfl⟩
  split
  · next h => exact .inl ⟨'n', by subst h; decide, rfl⟩
  split
  · next h => exact .inl ⟨'r', by subst h; decide, rfl⟩
  split
  · next h => exact .inl ⟨'t', by subst h; decide, rfl⟩
  split
  · next h => exact .inr (.inl ⟨h, rfl⟩)
  · next hquote hslash _ _ _ _ _ h => exact .inr (.inr ⟨h, hquote, hslash, rfl⟩)

theorem number?_code {n : Nat} (h : n < 0x20) :
    Hex.number? ['0', '0', Hex.digit (n / 16), Hex.digit (n % 16)] = some n := by
  have hzero : Hex.value? '0' = some 0 := by decide
  have hhigh : Hex.value? (Hex.digit (n / 16)) = some (n / 16) := Hex.value?_digit (by omega)
  have hlow : Hex.value? (Hex.digit (n % 16)) = some (n % 16) := Hex.value?_digit (by omega)
  have hsum : n / 16 * 16 + n % 16 = n := by omega
  simp [Hex.number?, hzero, hhigh, hlow, hsum]

/-- A character that was written is read as one piece. -/
theorem pieces_escape (c : Char) :
    ∃ p, StandsFor p c ∧ ∀ s, pieces (escape c ++ s) = consPiece (some p) (pieces s) := by
  rcases escape_cases c with ⟨letter, hletter, hc⟩ | ⟨hcode, hc⟩ | ⟨hcode, hquote, hslash, hc⟩
  · refine ⟨.char c, standsFor_char c, fun s => ?_⟩
    have hu : letter ≠ 'u' := by
      rintro rfl
      simp [shortEscape?] at hletter
    rw [hc, List.cons_append, List.singleton_append, pieces, hletter]
    · rfl
    · rintro _ _ _ _ _ rfl
      exact absurd rfl hu
  · refine ⟨.unit c.toNat, standsFor_unit hcode, fun s => ?_⟩
    rw [hc]
    simp only [List.cons_append, List.nil_append]
    rw [pieces, number?_code hcode]
    rfl
  · refine ⟨.char c, standsFor_char c, fun s => ?_⟩
    rw [hc, List.singleton_append, pieces]
    · simp [hcode, hslash]
    all_goals simp_all

/-- What was written between quotes is read back. -/
theorem pieces_write (s rest : List Char) :
    ∃ ps, text? ps = some s ∧ pieces (s.flatMap escape ++ '"' :: rest) = some (ps, rest) := by
  induction s with
  | nil => exact ⟨[], rfl, by rw [List.flatMap_nil, List.nil_append, pieces]⟩
  | cons c s ih =>
    obtain ⟨p, hp, hread⟩ := pieces_escape c
    obtain ⟨ps, hps, hrest⟩ := ih
    refine ⟨p :: ps, ?_, ?_⟩
    · rw [hp, hps]
      rfl
    · rw [List.flatMap_cons, List.append_assoc, hread, hrest]
      rfl

end AtomicCss.Json.Quoted
