import AtomicCss.Format.Json.Reader
import AtomicCss.Proofs.Format.Json.Quoted
import Mathlib.Data.List.TakeWhile

/-!
# The tokens of a JSON text

What is cut off a text in front of the rest: a blank, a mark, a string between quotes, a word and a
numeral. A word or numeral goes on as far as it can, so the rest must not prolong it.
-/

namespace AtomicCss.Json

open Nesting (Token)

/-- A text that does not prolong a numeral or a word in front of it. -/
def Ends (s : List Char) : Prop :=
  ∀ c, s.head? = some c → isNumeralChar c = false ∧ c.isAlpha = false

theorem takeWhile_append {p : Char → Bool} {s rest : List Char} (hs : ∀ c ∈ s, p c = true)
    (hrest : ∀ c, rest.head? = some c → p c = false) : (s ++ rest).takeWhile p = s := by
  rw [List.takeWhile_append_of_pos hs]
  cases rest with
  | nil => simp
  | cons c rest => simp [hrest c rfl]

theorem dropWhile_append {p : Char → Bool} {s rest : List Char} (hs : ∀ c ∈ s, p c = true)
    (hrest : ∀ c, rest.head? = some c → p c = false) : (s ++ rest).dropWhile p = rest := by
  rw [List.dropWhile_append_of_pos hs, Text.dropWhile_eq_self hrest]

variable {c : Char} {s rest : List Char}

theorem tokens?_space (hc : isSpace c = true) : tokens? (c :: s) = tokens? s := by
  rw [tokens?, if_pos hc]

theorem tokens?_mark {t : Token Member} (hc : mark? c = some t) :
    tokens? (c :: s) = (tokens? s).map (t :: ·) := by
  have hmark : c = '[' ∨ c = ']' ∨ c = '\x7b' ∨ c = '\x7d' ∨ c = ',' ∨ c = ':' := by
    unfold mark? at hc
    grind
  have hother : isSpace c = false ∧ c ≠ '"' ∧ (c.isDigit || decide (c = '-')) = false ∧
      c.isAlpha = false := by
    rcases hmark with rfl | rfl | rfl | rfl | rfl | rfl <;> decide
  obtain ⟨hspace, hquote, hdigit, halpha⟩ := hother
  rw [tokens?]
  simp only [hspace, hquote, hdigit, halpha, hc]
  cases tokens? s <;> rfl

theorem tokens?_quoted (t : List Char) :
    tokens? (Quoted.write t ++ rest) =
      consScalar (some (.string (some (String.ofList t)))) (tokens? rest) := by
  obtain ⟨ps, hps, hread⟩ := Quoted.pieces_write t rest
  have hwrite : Quoted.write t ++ rest = '"' :: (t.flatMap Quoted.escape ++ '"' :: rest) := by
    simp [Quoted.write]
  rw [hwrite, tokens?]
  rw [if_neg (by decide), if_pos rfl]
  split
  · next h =>
    rw [hread] at h
    cases h
  · next ps' rest' h =>
    rw [hread] at h
    cases h
    rw [hps]
    rfl

theorem tokens?_word {j : Raw} (hj : word? (c :: s) = some j)
    (hs : (c :: s).all Char.isAlpha = true)
    (hc : isSpace c = false ∧ c ≠ '"' ∧ (c.isDigit || decide (c = '-')) = false)
    (hrest : Ends rest) : tokens? (c :: s ++ rest) = consScalar (some j) (tokens? rest) := by
  have hend (a : Char) (ha : rest.head? = some a) : a.isAlpha = false := (hrest a ha).2
  obtain ⟨hhead, htail⟩ := List.forall_mem_cons.1 (List.all_eq_true.1 hs)
  obtain ⟨hspace, hquote, hdigit⟩ := hc
  rw [List.cons_append, tokens?]
  simp only [hspace, hquote, hdigit, hhead, takeWhile_append htail hend,
    dropWhile_append htail hend, hj]
  rfl

/-! ### Numerals -/

theorem isNumeralChar_of_isDigit (h : c.isDigit = true) : isNumeralChar c = true := by
  simp [isNumeralChar, h]

/-- Digits in front of characters of a numeral are such characters, too. -/
theorem isNumeralChar_of_digits (h : ∀ a ∈ (Numeral.digits s).2, isNumeralChar a = true) :
    ∀ a ∈ s, isNumeralChar a = true := by
  intro a ha
  rw [← List.takeWhile_append_dropWhile (p := Char.isDigit) (l := s)] at ha
  rcases List.mem_append.1 ha with ha | ha
  · exact isNumeralChar_of_isDigit (List.mem_takeWhile_imp ha)
  · exact h a ha

theorem isNumeralChar_of_exponent? {n : Int} (h : Numeral.exponent? s = some n) :
    ∀ a ∈ s, isNumeralChar a = true := by
  unfold Numeral.exponent? at h
  split at h
  next negative s' heq =>
  have hrest : ∀ a ∈ s', isNumeralChar a = true := by
    apply isNumeralChar_of_digits
    split at h
    · cases h
    · cases h
    · next hdigits => simp [hdigits]
  split at heq
  · cases heq
    exact List.forall_mem_cons.2 ⟨by decide, hrest⟩
  · cases heq
    exact List.forall_mem_cons.2 ⟨by decide, hrest⟩
  · cases heq
    exact hrest

theorem isNumeralChar_of_behindWhole {whole fraction : List Nat} {p : Numeral.Parts}
    (h : Numeral.behindWhole whole fraction s = some p) : ∀ a ∈ s, isNumeralChar a = true := by
  cases s with
  | nil => simp
  | cons c s =>
    rw [Numeral.behindWhole] at h
    split at h
    · next hc =>
      obtain ⟨n, hn, -⟩ := Option.map_eq_some_iff.1 h
      refine List.forall_mem_cons.2 ⟨?_, isNumeralChar_of_exponent? hn⟩
      have hc : c = 'e' ∨ c = 'E' := by simpa using hc
      rcases hc with rfl | rfl <;> decide
    · cases h

/-- Behind its sign, a numeral begins with digits. -/
theorem digits_of_parts? {p : Numeral.Parts} (h : Numeral.parts? s = some p) :
    (Numeral.digits (if s.head? = some '-' then s.tail else s)).1 ≠ [] ∧
      ∀ a ∈ if s.head? = some '-' then s.tail else s, isNumeralChar a = true := by
  unfold Numeral.parts? at h
  dsimp only at h
  generalize (if s.head? = some '-' then s.tail else s) = u at h ⊢
  split at h
  · cases h
  · cases h
  · next whole rest hne _ heq =>
    refine ⟨by rw [heq]; exact hne, isNumeralChar_of_digits ?_⟩
    rw [heq]
    refine List.forall_mem_cons.2 ⟨by decide, isNumeralChar_of_digits ?_⟩
    split at h
    · cases h
    · next fraction rest _ heq => simpa [heq] using isNumeralChar_of_behindWhole h
  · next whole rest hne _ _ heq =>
    refine ⟨by rw [heq]; exact hne, isNumeralChar_of_digits ?_⟩
    rw [heq]
    exact isNumeralChar_of_behindWhole h

/-- A numeral begins with a digit or a sign, and all of its characters are those of numerals. -/
theorem exists_cons_of_isNumeral (h : Numeral.isNumeral s = true) :
    ∃ c rest, s = c :: rest ∧ (c.isDigit || decide (c = '-')) = true ∧
      ∀ a ∈ rest, isNumeralChar a = true := by
  obtain ⟨p, hp⟩ := Option.isSome_iff_exists.1 h
  obtain ⟨hdigits, hchars⟩ := digits_of_parts? hp
  cases s with
  | nil => exact absurd rfl hdigits
  | cons c rest =>
    refine ⟨c, rest, rfl, ?_⟩
    by_cases hc : c = '-'
    · subst hc
      exact ⟨rfl, hchars⟩
    · have hhead : (c :: rest).head? ≠ some '-' := by simpa using hc
      rw [if_neg hhead] at hdigits hchars
      refine ⟨?_, fun a ha => hchars a (List.mem_cons_of_mem _ ha)⟩
      by_contra hdigit
      simp_all [Numeral.digits]

theorem tokens?_numeral (hs : Numeral.isNumeral s = true) (hrest : Ends rest) :
    tokens? (s ++ rest) = consScalar (some (.number (String.ofList s))) (tokens? rest) := by
  obtain ⟨c, s, rfl, hc, hchars⟩ := exists_cons_of_isNumeral hs
  have hend (a : Char) (ha : rest.head? = some a) : isNumeralChar a = false := (hrest a ha).1
  have hne (a : Char) (ha : (a.isDigit || decide (a = '-')) = false) : c ≠ a := by
    rintro rfl
    rw [hc] at ha
    cases ha
  have hother : isSpace c = false ∧ c ≠ '"' := by
    simp [isSpace, hne ' ' rfl, hne '\t' rfl, hne '\n' rfl, hne '\r' rfl, hne '"' rfl]
  rw [List.cons_append, tokens?]
  simp only [hother, hc, takeWhile_append hchars hend, dropWhile_append hchars hend, hs]
  rfl

end AtomicCss.Json
