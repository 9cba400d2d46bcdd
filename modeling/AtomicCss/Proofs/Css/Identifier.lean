import AtomicCss.Css.Identifier
import AtomicCss.Css.Name
import Mathlib.Data.List.Basic

/-! # Identifiers, character by character

An identifier spells a text character by character, although its first characters are spelled in
another way than the rest (`spelled_escapeIdentifier`). Reading it gives the text back
(`Spelled.unescape_append`). -/

namespace AtomicCss.Css

variable {c : Char} {s t e ds : List Char}

theorem eq_ofNat {n : Nat} (h : c.toNat = n) : c = Char.ofNat n := by rw [← h, Char.ofNat_toNat]

/-- The characters that may be written by their code: digits, since an identifier cannot start with
one, and control characters. -/
def HasCode (c : Char) : Prop := c.isDigit = true ∨ 0 < c.toNat ∧ c.toNat ≤ 0x1F ∨ c.toNat = 0x7F

instance : DecidablePred HasCode := fun _ => inferInstanceAs (Decidable (_ ∨ _))

theorem HasCode.toNat_lt (h : HasCode c) : c.toNat < 128 := by
  rcases h with hdigit | hlow | hdel
  · simp only [Char.isDigit, Bool.and_eq_true, decide_eq_true_eq] at hdigit
    have hle : c.toNat ≤ 57 := hdigit.2
    omega
  · omega
  · omega

/-- How a character may stand in an identifier. -/
inductive Spells : Char → List Char → Prop
  | self {c : Char} (hc : c.isAlphanum = true ∨ c = '_' ∨ c = '-' ∨ 0x80 ≤ c.toNat) : Spells c [c]
  | null : Spells '\x00' ['\uFFFD']
  | code {c : Char} (hc : HasCode c) : Spells c (codeEscape c)
  | mark {c : Char} (hlow : 0x20 ≤ c.toNat) (hhigh : c.toNat < 0x7F)
      (hc : c.isAlphanum = false) : Spells c ['\\', c]

/-- How a text may stand in an identifier. -/
inductive Spelled : List Char → List Char → Prop
  | nil : Spelled [] []
  | cons {c : Char} {s e t : List Char} (head : Spells c e) (tail : Spelled s t) :
      Spelled (c :: s) (e ++ t)

theorem spells_escapeNameChar (c : Char) : Spells c (escapeNameChar c) := by
  unfold escapeNameChar
  split
  · rename_i hc
    exact .self (by simpa [or_assoc] using hc)
  · rename_i hself
    simp only [Bool.or_eq_true, not_or, Bool.not_eq_true, beq_iff_eq, decide_eq_true_eq] at hself
    split
    · rename_i hnull
      rw [beq_iff_eq.1 hnull]
      exact .null
    · rename_i hnull
      have hpos : 0 < c.toNat :=
        Nat.pos_of_ne_zero fun hzero => hnull (beq_iff_eq.2 (eq_ofNat hzero))
      simp only [Bool.or_eq_true, beq_iff_eq, decide_eq_true_eq]
      split
      · rename_i hcode
        exact .code (.inr (hcode.imp_left fun hlow => ⟨hpos, hlow⟩))
      · rename_i hcode
        exact .mark (by omega) (by omega) hself.1.1.1

theorem spelled_escapeName (s : List Char) : Spelled s (escapeName s) := by
  induction s with
  | nil => exact .nil
  | cons c s ih => exact .cons (spells_escapeNameChar c) ih

theorem spelled_escapeNameStart (s : List Char) : Spelled s (escapeNameStart s) := by
  cases s with
  | nil => exact .nil
  | cons c s =>
    unfold escapeNameStart
    refine .cons ?_ (spelled_escapeName s)
    split
    · rename_i hc
      exact .code (.inl hc)
    · exact spells_escapeNameChar c

theorem spells_dash : Spells '-' ['-'] := .self (.inr (.inr (.inl rfl)))

/-- An identifier spells its text. -/
theorem spelled_escapeIdentifier (s : List Char) : Spelled s (escapeIdentifier s) := by
  unfold escapeIdentifier
  split
  · exact .cons (.mark (by decide) (by decide) (by decide)) .nil
  · exact .cons spells_dash (.cons spells_dash (spelled_escapeName _))
  · exact .cons spells_dash (spelled_escapeNameStart _)
  · exact spelled_escapeNameStart _

/-! ## Reading an identifier -/

theorem of_ascii {p : Char → Prop} (h : ∀ n < 128, p (Char.ofNat n)) (hc : c.toNat < 128) : p c := by
  have hp := h c.toNat hc
  rwa [Char.ofNat_toNat] at hp

theorem toDigits_ascii : ∀ n < 128, (Nat.toDigits 16 n).all isHexDigit = true ∧
    Nat.toDigits 16 n ≠ [] ∧ (Nat.toDigits 16 n).length ≤ 6 ∧ hexValue (Nat.toDigits 16 n) = n := by
  decide

theorem hexDigits_append {n : Nat} (hds : ∀ d ∈ ds, isHexDigit d = true) (hlen : ds.length ≤ n)
    (ht : ∀ d, t.head? = some d → isHexDigit d = false) : hexDigits n (ds ++ t) = (ds, t) := by
  induction ds generalizing n with
  | nil =>
    cases t with
    | nil => cases n <;> rfl
    | cons c t =>
      cases n with
      | zero => rfl
      | succ n => simp [hexDigits, ht c rfl, Cut.none]
  | cons d ds ih =>
    obtain ⟨hd, hds⟩ := List.forall_mem_cons.1 hds
    cases n with
    | zero => cases hlen
    | succ n =>
      rw [List.cons_append, hexDigits, if_pos hd, ih hds (Nat.le_of_succ_le_succ hlen)]
      rfl

theorem unescape_cons (hc : c ≠ '\\') (hnull : c ≠ '\x00') : unescape (c :: t) = c :: unescape t := by
  rw [unescape, if_neg hc, if_neg hnull]

theorem unescape_backslash (t : List Char) :
    unescape ('\\' :: t) = escapedChar (escape t).1 :: unescape (escape t).2 := by
  rw [unescape, if_pos rfl]

theorem escapedChar_hex (hds : ∀ d ∈ ds, isHexDigit d = true) (hne : ds ≠ [])
    (ht : ∀ d, t.head? = some d → isHexDigit d = false) :
    escapedChar (ds ++ t) = charOfCode (hexValue ds) := by
  have htake : (ds ++ t).takeWhile isHexDigit = ds := by
    rw [List.takeWhile_append_of_pos hds]
    cases t with
    | nil => simp
    | cons c t => simp [ht c rfl]
  obtain ⟨d, ds, rfl⟩ := List.exists_cons_of_ne_nil hne
  rw [List.cons_append] at htake ⊢
  rw [escapedChar, if_pos (hds d List.mem_cons_self), htake]

theorem charOfCode_toNat (hc : c ≠ '\x00') : charOfCode c.toNat = c := by
  have hne : c.toNat ≠ 0 := fun hzero => hc (eq_ofNat hzero)
  rw [charOfCode, if_pos ⟨hne, c.valid⟩, Char.ofNat_toNat]

theorem escape_hex (hds : ∀ d ∈ ds, isHexDigit d = true) (hne : ds ≠ []) (hlen : ds.length ≤ 6)
    (ht : ∀ d, t.head? = some d → isHexDigit d = false) :
    escape (ds ++ t) = (ds ++ (space t).1, (space t).2) := by
  have hdigits := hexDigits_append hds hlen ht
  obtain ⟨d, ds, rfl⟩ := List.exists_cons_of_ne_nil hne
  rw [List.cons_append] at hdigits ⊢
  rw [escape, if_pos (hds d List.mem_cons_self), hdigits]
  rfl

/-- A code is read up to the blank behind it. -/
theorem unescape_codeEscape (hlt : c.toNat < 128) (hc : c ≠ '\x00') (t : List Char) :
    unescape (codeEscape c ++ t) = c :: unescape t := by
  obtain ⟨hall, hne, hlen, hvalue⟩ := toDigits_ascii c.toNat hlt
  have hds := List.all_eq_true.1 hall
  have hblank (rest : List Char) (d : Char) (hd : (' ' :: rest).head? = some d) :
      isHexDigit d = false := by
    obtain rfl := Option.some.inj hd
    rfl
  have htext : codeEscape c ++ t = '\\' :: (Nat.toDigits 16 c.toNat ++ ' ' :: t) := by
    simp [codeEscape]
  have hspace : space (' ' :: t) = ([' '], t) := rfl
  rw [htext, unescape_backslash, escape_hex hds hne hlen (hblank t), hspace,
    escapedChar_hex hds hne (hblank []), hvalue, charOfCode_toNat hc]

/-- At the end of the input, a code needs no blank. -/
theorem unescape_code_end (hlt : c.toNat < 128) (hc : c ≠ '\x00') :
    unescape ('\\' :: Nat.toDigits 16 c.toNat) = [c] := by
  obtain ⟨hall, hne, hlen, hvalue⟩ := toDigits_ascii c.toNat hlt
  have hds := List.all_eq_true.1 hall
  have hend (d : Char) (hd : ([] : List Char).head? = some d) : isHexDigit d = false := nomatch hd
  have hescape := escape_hex hds hne hlen hend
  have hchar := escapedChar_hex hds hne hend
  have hspace : space [] = ([], []) := rfl
  rw [hspace] at hescape
  rw [List.append_nil] at hescape hchar
  rw [unescape_backslash, hescape, hchar, hvalue, charOfCode_toNat hc, unescape]

theorem not_isHexDigit (hlt : c.toNat < 128) (hc : c.isAlphanum = false) : isHexDigit c = false := by
  revert hc
  exact of_ascii (p := fun c => c.isAlphanum = false → isHexDigit c = false) (by decide) hlt

/-- Reading what spells a character gives the character. -/
theorem Spells.unescape_append (h : Spells c e) (hc : c ≠ '\x00') (t : List Char) :
    unescape (e ++ t) = c :: unescape t := by
  cases h with
  | self hself =>
    apply unescape_cons _ hc
    rintro rfl
    revert hself
    decide
  | null => exact absurd rfl hc
  | code hcode => exact unescape_codeEscape hcode.toNat_lt hc t
  | mark hlow hhigh hmark =>
    have hhex := not_isHexDigit (by omega) hmark
    show unescape ('\\' :: c :: t) = _
    rw [unescape_backslash, escape, hhex]
    simp [escapedChar, hhex, hc]

/-- **An identifier is read as the text that it spells.** -/
theorem Spelled.unescape_append (h : Spelled s e) (hs : '\x00' ∉ s) (t : List Char) :
    unescape (e ++ t) = s ++ unescape t := by
  induction h with
  | nil => rfl
  | cons head _ ih =>
    rw [List.mem_cons, not_or] at hs
    rw [List.append_assoc, head.unescape_append (Ne.symm hs.1), ih hs.2, List.cons_append]

end AtomicCss.Css
