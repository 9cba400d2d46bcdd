import AtomicCss.Proofs.Css.ClassSelector

/-! # Classes with the same selector

The selector of a class is trimmed, and a trimmed selector can still be read back (`readBack_trimmed`):
a code or an escaped blank at its end is told by what is left of it. Only the wide blanks at the end
of a name leave no trace, since they are not escaped. So two classes share a selector if they differ
in nothing but these (`trimmed_classSelector_eq_iff`). The name that is a single dash is written with
a backslash, and no other one shares its selector. -/

namespace AtomicCss.Css

variable {c : Char} {s t w e : List Char}

/-- A blank beyond ASCII, which stands for itself in an identifier. -/
def isWide (c : Char) : Bool := Text.isBlank c && 0x80 ≤ c.toNat

/-- What the selector of a class tells of its name. -/
def told (className : String) : List Char := Text.dropEndWhile isWide className.toList

theorem isBlank_of_isWide (h : isWide c = true) : Text.isBlank c = true :=
  (Bool.and_eq_true_iff.1 h).1

theorem le_of_isWide (h : isWide c = true) : 0x80 ≤ c.toNat :=
  of_decide_eq_true (Bool.and_eq_true_iff.1 h).2

/-! ## Reading a trimmed identifier -/

/-- The text that a trimmed identifier was written for. A backslash without a character behind it is
left of an escaped blank. -/
def readBack (t : List Char) : List Char :=
  if t.getLast? = some '\\' ∧ (unescape t).getLast? = some '\uFFFD' then
    (unescape t).dropLast ++ [' ']
  else unescape t

theorem readBack_of_unescape (h : unescape t = s)
    (hlast : t.getLast? = some '\\' → s.getLast? ≠ some '\uFFFD') : readBack t = s := by
  rw [readBack, h, if_neg fun hboth => hlast hboth.1 hboth.2]

theorem Spelled.of_append (h : Spelled (s ++ w) t) :
    ∃ t₁ t₂, t = t₁ ++ t₂ ∧ Spelled s t₁ ∧ Spelled w t₂ := by
  induction s generalizing t with
  | nil => exact ⟨[], t, rfl, .nil, h⟩
  | cons c s ih =>
    cases h with
    | cons head tail =>
      obtain ⟨t₁, t₂, rfl, hs, hw⟩ := ih tail
      exact ⟨_, t₂, (List.append_assoc _ _ _).symm, .cons head hs, hw⟩

theorem Spelled.eq_of_isWide (h : Spelled s t) (hs : ∀ c ∈ s, isWide c = true) : t = s := by
  induction h with
  | nil => rfl
  | cons head _ ih =>
    obtain ⟨hc, hs⟩ := List.forall_mem_cons.1 hs
    have hle := le_of_isWide hc
    rw [ih hs]
    cases head with
    | self _ => rfl
    | null => exact absurd hle (by decide)
    | code hcode => exact absurd hcode.toNat_lt (by omega)
    | mark _ hhigh _ => omega

theorem isBlank_eq_false (hlow : 0x20 < c.toNat) (hhigh : c.toNat < 0x80) :
    Text.isBlank c = false := by
  simp [Text.isBlank]
  omega

theorem isBlank_space : ∀ c ∈ [' '], Text.isBlank c = true :=
  List.forall_mem_singleton.2 (by decide)

theorem isBlank_toDigits {d : Char} (hlt : c.toNat < 128) (hd : d ∈ Nat.toDigits 16 c.toNat) :
    Text.isBlank d = false := by
  have hall : ∀ n < 128, (Nat.toDigits 16 n).all (!Text.isBlank ·) = true := by decide
  simpa using List.all_eq_true.1 (hall _ hlt) d hd

/-- Trimming stops at the last character that is no blank. -/
theorem dropEndWhile_isBlank {x : Char} (he : e.getLast? = some x) (hx : Text.isBlank x = false)
    (hw : ∀ c ∈ w, Text.isBlank c = true) :
    Text.dropEndWhile Text.isBlank (t ++ (e ++ w)) = t ++ e := by
  rw [← List.append_assoc, Text.dropEndWhile_append hw]
  apply Text.dropEndWhile_eq_self
  intro y hy
  have hlast : x ∈ (t ++ e).getLast? := List.mem_getLast?_append_of_mem_getLast? he
  rwa [← Option.mem_unique hlast hy]

/-- A character that stands at the end of what spells it is read back. -/
theorem readBack_self (hs : Spelled s t) (hnull : '\x00' ∉ s) (hc : Spells c e) (hc0 : c ≠ '\x00')
    (he : e.getLast? = some c) (hblank : Text.isBlank c = false) :
    readBack (Text.dropEndWhile Text.isBlank (t ++ e)) = s ++ [c] := by
  have htrim := dropEndWhile_isBlank (t := t) (w := []) he hblank (by simp)
  rw [List.append_nil] at htrim
  rw [htrim]
  apply readBack_of_unescape
  · have hread := hc.unescape_append hc0 []
    rw [List.append_nil, unescape] at hread
    rw [hs.unescape_append hnull, hread]
  · intro hlast
    have hback := Option.mem_unique hlast (List.mem_getLast?_append_of_mem_getLast? he)
    rw [List.getLast?_concat, ← hback]
    decide

/-- A code is read back without its blank. -/
theorem readBack_code (hs : Spelled s t) (hnull : '\x00' ∉ s) (hlt : c.toNat < 128)
    (hc0 : c ≠ '\x00') :
    readBack (Text.dropEndWhile Text.isBlank (t ++ codeEscape c)) = s ++ [c] := by
  have hne := (toDigits_ascii c.toNat hlt).2.1
  have hblank := isBlank_toDigits hlt (List.getLast_mem hne)
  have hlast : ('\\' :: Nat.toDigits 16 c.toNat).getLast? =
      some ((Nat.toDigits 16 c.toNat).getLast hne) := by
    rw [List.getLast?_cons, List.getLast?_eq_some_getLast hne]
    rfl
  rw [codeEscape, dropEndWhile_isBlank hlast hblank isBlank_space]
  apply readBack_of_unescape
  · rw [hs.unescape_append hnull, unescape_code_end hlt hc0]
  · rintro - hend
    rw [List.getLast?_concat, Option.some.injEq] at hend
    rw [hend] at hlt
    exact absurd hlt (by decide)

/-- A blank is read back from its backslash. -/
theorem readBack_blank (hs : Spelled s t) (hnull : '\x00' ∉ s) :
    readBack (Text.dropEndWhile Text.isBlank (t ++ ['\\', ' '])) = s ++ [' '] := by
  have htrim : Text.dropEndWhile Text.isBlank (t ++ (['\\'] ++ [' '])) = t ++ ['\\'] :=
    dropEndWhile_isBlank rfl (by decide) isBlank_space
  have hback : unescape ['\\'] = ['\uFFFD'] := by
    simp [unescape_backslash, escape, Cut.none, escapedChar, unescape]
  have hread : unescape (t ++ ['\\']) = s ++ ['\uFFFD'] := by
    rw [hs.unescape_append hnull, hback]
  rw [List.singleton_append] at htrim
  rw [htrim, readBack, hread, List.dropLast_concat, List.getLast?_concat, List.getLast?_concat]
  exact if_pos ⟨rfl, rfl⟩

/-- What is left of a spelled text is read back if the text does not end with a wide blank. -/
theorem readBack_concat (hs : Spelled s t) (hc : Spells c e) (hnull : '\x00' ∉ s ++ [c])
    (hwide : isWide c = false) :
    readBack (Text.dropEndWhile Text.isBlank (t ++ e)) = s ++ [c] := by
  rw [List.mem_append, List.mem_singleton, not_or] at hnull
  obtain ⟨hs0, hc0⟩ := hnull
  -- beyond ASCII, all blanks are wide
  have hhigh (h : 0x80 ≤ c.toNat) : Text.isBlank c = false := by
    simpa [isWide, h] using hwide
  cases hc with
  | self hself =>
    refine readBack_self hs hs0 (.self hself) (Ne.symm hc0) rfl ?_
    by_cases hlt : c.toNat < 128
    · revert hself
      exact of_ascii (p := fun c => c.isAlphanum = true ∨ c = '_' ∨ c = '-' ∨ 0x80 ≤ c.toNat →
        Text.isBlank c = false) (by decide) hlt
    · exact hhigh (by omega)
  | null => exact absurd rfl hc0
  | code hcode => exact readBack_code hs hs0 hcode.toNat_lt (Ne.symm hc0)
  | mark hlow hhigh hmark =>
    by_cases hspace : c = ' '
    · subst hspace
      exact readBack_blank hs hs0
    · refine readBack_self hs hs0 (.mark hlow hhigh hmark) (Ne.symm hc0) rfl ?_
      have hne : c.toNat ≠ 0x20 := fun heq => hspace (eq_ofNat heq)
      exact isBlank_eq_false (by omega) (by omega)

/-- **A trimmed identifier can be read back** up to the wide blanks at the end of its text. -/
theorem readBack_trimmed (hs : '\x00' ∉ s) :
    readBack (Text.dropEndWhile Text.isBlank (escapeIdentifier s)) = Text.dropEndWhile isWide s := by
  obtain ⟨w, hw, hwide⟩ := Text.exists_dropEndWhile isWide s
  have hlast (c : Char) (hc : (Text.dropEndWhile isWide s).getLast? = some c) : isWide c = false :=
    Text.getLast?_dropEndWhile hc
  -- the wide blanks at the end stand for themselves, so trimming takes them away
  generalize Text.dropEndWhile isWide s = core at hw hlast ⊢
  subst hw
  obtain ⟨t, t', ht, hcore, hrest⟩ := (spelled_escapeIdentifier (core ++ w)).of_append
  rw [ht, hrest.eq_of_isWide hwide,
    Text.dropEndWhile_append fun c hc => isBlank_of_isWide (hwide c hc)]
  rcases List.eq_nil_or_concat' core with rfl | ⟨s, c, rfl⟩
  · cases hcore
    simp [readBack, Text.dropEndWhile, unescape]
  · obtain ⟨t₁, t₂, rfl, hfront, hend⟩ := hcore.of_append
    cases hend with
    | cons head tail =>
      cases tail
      rw [List.append_nil]
      exact readBack_concat hfront head (fun h => hs (List.mem_append_left _ h))
        (hlast c List.getLast?_concat)

/-! ## Names with the same selector -/

/-- How a text is spelled in an identifier that is not a single dash. -/
def spelling : List Char → List Char
  | '-' :: '-' :: s => '-' :: '-' :: escapeName s
  | '-' :: s => '-' :: escapeNameStart s
  | s => escapeNameStart s

theorem spelling_of_head (hs : s.head? ≠ some '-') : spelling s = escapeNameStart s := by
  cases s with
  | nil => rfl
  | cons c s =>
    have hc : c ≠ '-' := fun h => hs (congrArg some h)
    simp [spelling, hc]

theorem spelling_dash (hs : s.head? ≠ some '-') : spelling ('-' :: s) = '-' :: escapeNameStart s := by
  cases s with
  | nil => rfl
  | cons c s =>
    have hc : c ≠ '-' := fun h => hs (congrArg some h)
    simp [spelling, hc]

theorem escapeIdentifier_eq_spelling (hs : s ≠ ['-']) : escapeIdentifier s = spelling s := by
  unfold escapeIdentifier
  split
  · exact absurd rfl hs
  · rfl
  · rename_i r _ hdash
    refine (spelling_dash fun hr => ?_).symm
    obtain ⟨r', rfl⟩ := List.head?_eq_some_iff.1 hr
    exact hdash r' rfl
  · rename_i hother
    refine (spelling_of_head fun hr => ?_).symm
    obtain ⟨r', rfl⟩ := List.head?_eq_some_iff.1 hr
    exact hother r' rfl

theorem escapeNameChar_of_isWide (hc : isWide c = true) : escapeNameChar c = [c] := by
  rw [escapeNameChar, if_pos (by simp [le_of_isWide hc])]

theorem escapeName_append (hw : ∀ c ∈ w, isWide c = true) (s : List Char) :
    escapeName (s ++ w) = escapeName s ++ w := by
  have hself : escapeName w = w := by
    rw [escapeName, List.flatMap_congr fun c hc => escapeNameChar_of_isWide (hw c hc)]
    exact List.flatMap_singleton' w
  rw [escapeName, List.flatMap_append, ← escapeName, ← escapeName, hself]

theorem escapeNameStart_append (hw : ∀ c ∈ w, isWide c = true) (s : List Char) :
    escapeNameStart (s ++ w) = escapeNameStart s ++ w := by
  cases s with
  | cons c s =>
    rw [List.cons_append, escapeNameStart, escapeName_append hw, ← List.append_assoc, escapeNameStart]
  | nil =>
    cases w with
    | nil => rfl
    | cons c w =>
      have hc := hw c List.mem_cons_self
      have hdigit : ¬c.isDigit = true := by
        intro hdigit
        have := HasCode.toNat_lt (.inl hdigit)
        have := le_of_isWide hc
        omega
      have hrest := escapeName_append (fun x hx => hw x (List.mem_cons_of_mem _ hx)) []
      rw [List.nil_append] at hrest
      show (if c.isDigit then codeEscape c else escapeNameChar c) ++ escapeName w = c :: w
      rw [if_neg hdigit, hrest, escapeNameChar_of_isWide hc]
      rfl

theorem head?_of_isWide (hw : ∀ c ∈ w, isWide c = true) : w.head? ≠ some '-' := by
  intro hhead
  exact absurd (hw '-' (List.mem_of_head? hhead)) (by decide)

/-- Wide blanks at the end of a text stand for themselves. -/
theorem spelling_append (hw : ∀ c ∈ w, isWide c = true) (s : List Char) :
    spelling (s ++ w) = spelling s ++ w := by
  have hhead := head?_of_isWide hw
  have happend {s : List Char} (hs : s.head? ≠ some '-') : (s ++ w).head? ≠ some '-' := by
    cases s with
    | nil => exact hhead
    | cons c s => exact hs
  by_cases hs : s.head? = some '-'
  · obtain ⟨s, rfl⟩ := List.head?_eq_some_iff.1 hs
    by_cases hs' : s.head? = some '-'
    · obtain ⟨s, rfl⟩ := List.head?_eq_some_iff.1 hs'
      show '-' :: '-' :: escapeName (s ++ w) = '-' :: '-' :: (escapeName s ++ w)
      rw [escapeName_append hw]
    · rw [List.cons_append, spelling_dash hs', spelling_dash (happend hs'), escapeNameStart_append hw,
        List.cons_append]
  · rw [spelling_of_head hs, spelling_of_head (happend hs), escapeNameStart_append hw]

theorem trimmed_classSelector_inj {a b : String} :
    Text.trimmed (classSelector a) = Text.trimmed (classSelector b) ↔
      Text.dropEndWhile Text.isBlank (escapeIdentifier a.toList) =
        Text.dropEndWhile Text.isBlank (escapeIdentifier b.toList) := by
  rw [← String.toList_inj, toList_trimmed_classSelector, toList_trimmed_classSelector,
    List.cons.injEq, eq_self, true_and]

/-- Unless the name is a single dash, its selector is determined by what it tells of the name. -/
theorem dropEndWhile_escapeIdentifier (hs : s ≠ ['-']) :
    Text.dropEndWhile Text.isBlank (escapeIdentifier s) =
      Text.dropEndWhile Text.isBlank (spelling (Text.dropEndWhile isWide s)) := by
  obtain ⟨w, hw, hwide⟩ := Text.exists_dropEndWhile isWide s
  have hspelling := spelling_append hwide (Text.dropEndWhile isWide s)
  rw [← hw] at hspelling
  rw [escapeIdentifier_eq_spelling hs, hspelling,
    Text.dropEndWhile_append fun c hc => isBlank_of_isWide (hwide c hc)]

/-- No other name shares the selector of the single dash. -/
theorem eq_dash {a b : String} (ha : a = "-") (htold : told a = told b)
    (h : Text.dropEndWhile Text.isBlank (escapeIdentifier a.toList) =
      Text.dropEndWhile Text.isBlank (escapeIdentifier b.toList)) : b = "-" := by
  subst ha
  by_contra hb
  have hb : b.toList ≠ ['-'] := fun hdash => hb (String.toList_inj.1 hdash)
  rw [dropEndWhile_escapeIdentifier hb, ← told, ← htold] at h
  revert h
  decide

/-- **Which classes share a selector.** Two names without NUL have the same selector if and only if
they are the same up to wide blanks at the end, and if one is a single dash then both are. -/
theorem trimmed_classSelector_eq_iff {a b : String} (ha : '\x00' ∉ a.toList)
    (hb : '\x00' ∉ b.toList) :
    Text.trimmed (classSelector a) = Text.trimmed (classSelector b) ↔
      told a = told b ∧ (a = "-" ↔ b = "-") := by
  rw [trimmed_classSelector_inj]
  constructor
  · intro h
    have htold : told a = told b := by
      rw [told, ← readBack_trimmed ha, h, readBack_trimmed hb, told]
    exact ⟨htold, fun hdash => eq_dash hdash htold h, fun hdash => eq_dash hdash htold.symm h.symm⟩
  · rintro ⟨htold, hdash⟩
    by_cases hone : a = "-"
    · rw [hone, hdash.1 hone]
    · have ha' : a.toList ≠ ['-'] := fun h => hone (String.toList_inj.1 h)
      have hb' : b.toList ≠ ['-'] := fun h => hone (hdash.2 (String.toList_inj.1 h))
      rw [dropEndWhile_escapeIdentifier ha', dropEndWhile_escapeIdentifier hb', ← told, htold, told]

end AtomicCss.Css
