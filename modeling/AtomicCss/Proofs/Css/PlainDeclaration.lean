import AtomicCss.Proofs.Css.DeclarationList
import AtomicCss.Proofs.Css.Identifier

/-! # Declarations that are read as they are written

An identifier that needs no escapes is one lexeme in front of a colon (`PlainName.lex_append`). So a
declaration of such a property with a closed value is a segment (`segment_declaration`), and what is read
of it is the property and the value (`pair?_declaration`). -/

namespace AtomicCss.Css

variable {c : Char} {p v : String} {e s t : List Char} {stack : List Bracket} {l : Lexeme}
  {ls : List Lexeme}

/-! ## Identifiers that need no escapes -/

/-- An identifier that stands for itself. -/
structure PlainName (p : String) : Prop where
  inhabited : p ≠ ""
  unescaped : escapeIdentifier p.toList = p.toList

instance : DecidablePred PlainName := fun p =>
  decidable_of_iff (p ≠ "" ∧ escapeIdentifier p.toList = p.toList)
    ⟨fun ⟨h1, h2⟩ => ⟨h1, h2⟩, fun ⟨h1, h2⟩ => ⟨h1, h2⟩⟩

/-- A character that stands for itself in a name. -/
structure PlainChar (c : Char) : Prop where
  isNameChar : isNameChar c = true
  ne_backslash : c ≠ '\\'
  ne_null : c ≠ '\x00'

theorem PlainChar.isSpace_eq (h : PlainChar c) : isSpace c = false := by
  rw [Bool.eq_false_iff]
  intro hspace
  have hname := h.isNameChar
  simp only [isSpace, isNewline, Bool.or_eq_true, beq_iff_eq] at hspace
  rcases hspace with (rfl | rfl) | (rfl | rfl) | rfl <;> cases hname

theorem Spells.ne_nil (h : Spells c e) : e ≠ [] := by
  cases h <;> exact List.cons_ne_nil _ _

theorem Spelled.of_cons (h : Spelled (c :: s) t) :
    ∃ e t', t = e ++ t' ∧ Spells c e ∧ Spelled s t' := by
  cases h with
  | cons head tail => exact ⟨_, _, rfl, head, tail⟩

theorem Spelled.length_le (h : Spelled s t) : s.length ≤ t.length := by
  induction h with
  | nil => exact Nat.le_refl 0
  | cons head _ ih =>
    have hpos := List.length_pos_of_ne_nil head.ne_nil
    rw [List.length_cons, List.length_append]
    omega

theorem Spells.plainChar (h : Spells c [c]) : PlainChar c := by
  generalize he : [c] = e at h
  cases h with
  | self hc =>
    refine ⟨?_, ?_, ?_⟩
    · simp only [Char.isAlphanum, Bool.or_eq_true] at hc
      simp only [isNameChar, isNameStart, Bool.or_eq_true, beq_iff_eq, decide_eq_true_eq]
      tauto
    · rintro rfl
      revert hc
      decide
    · rintro rfl
      revert hc
      decide
  | null => cases he
  | code hc => simp [codeEscape] at he
  | mark => cases he

/-- Each character of a text that stands for itself does so. -/
theorem Spelled.plainChar (h : Spelled s s) : ∀ c ∈ s, PlainChar c := by
  induction s with
  | nil => simp
  | cons c s ih =>
    obtain ⟨e, t, heq, hhead, htail⟩ := h.of_cons
    -- no character is spelled with less than one, so none is spelled with more
    have hlength := congrArg List.length heq
    have hpos := List.length_pos_of_ne_nil hhead.ne_nil
    have hle := htail.length_le
    rw [List.length_cons, List.length_append] at hlength
    have happend : [c] ++ s = e ++ t := heq
    obtain ⟨rfl, rfl⟩ := List.append_inj happend (by rw [List.length_singleton]; omega)
    exact List.forall_mem_cons.2 ⟨hhead.plainChar, ih htail⟩

theorem PlainName.plainChar (h : PlainName p) : ∀ c ∈ p.toList, PlainChar c := by
  have hspelled := spelled_escapeIdentifier p.toList
  rw [h.unescaped] at hspelled
  exact hspelled.plainChar

theorem PlainName.unescape_eq (h : PlainName p) : unescape p.toList = p.toList := by
  have hspelled := spelled_escapeIdentifier p.toList
  rw [h.unescaped] at hspelled
  have hread := hspelled.unescape_append (fun hnull => (h.plainChar _ hnull).ne_null rfl) []
  have hnil : unescape [] = [] := by rw [unescape]
  rwa [hnil, List.append_nil] at hread

/-- How names that stand for themselves start: with a character that may start a name, or with a hyphen
in front of one or of another hyphen. -/
inductive PlainStart : List Char → Prop
  | letter {c : Char} (hc : isNameStart c = true) (s : List Char) : PlainStart (c :: s)
  | hyphen {c : Char} (hc : c = '-' ∨ isNameStart c = true) (s : List Char) : PlainStart ('-' :: c :: s)

theorem isNameStart_of_escapeNameStart (h : escapeNameStart (c :: s) = c :: s) (hc : PlainChar c)
    (hdash : c ≠ '-') : isNameStart c = true := by
  have hdigit : c.isDigit = false := by
    rw [Bool.eq_false_iff]
    intro hdigit
    rw [escapeNameStart, if_pos hdigit] at h
    exact hc.ne_backslash (List.cons.inj h).1.symm
  simpa [isNameChar, hdigit, hdash] using hc.isNameChar

theorem plainStart_of_escapeIdentifier (hne : s ≠ []) (hs : ∀ c ∈ s, PlainChar c)
    (h : escapeIdentifier s = s) : PlainStart s := by
  revert h
  fun_cases escapeIdentifier s with
  | case1 => simp
  | case2 s => exact fun _ => .hyphen (.inl rfl) s
  | case3 s hhyphen hcustom =>
    intro h
    obtain ⟨c, s, rfl⟩ := List.exists_cons_of_ne_nil hhyphen
    have hc := hs c (by simp)
    have hdash : c ≠ '-' := fun heq => hcustom s (by rw [heq])
    exact .hyphen (.inr (isNameStart_of_escapeNameStart (List.cons.inj h).2 hc hdash)) s
  | case4 _ _ _ hother =>
    intro h
    obtain ⟨c, s, rfl⟩ := List.exists_cons_of_ne_nil hne
    have hdash : c ≠ '-' := fun heq => hother s (by rw [heq])
    exact .letter (isNameStart_of_escapeNameStart h (hs c List.mem_cons_self) hdash) s

theorem PlainName.start (h : PlainName p) : PlainStart p.toList :=
  plainStart_of_escapeIdentifier (by simpa using h.inhabited) h.plainChar h.unescaped

/-! ## Reading them -/

theorem name_append_colon (hs : ∀ c ∈ s, PlainChar c) (t : List Char) :
    name (s ++ ':' :: t) = (s, ':' :: t) := by
  induction s with
  | nil =>
    rw [List.nil_append, name, if_neg (by decide), if_neg (by decide)]
    rfl
  | cons c s ih =>
    obtain ⟨hc, hs⟩ := List.forall_mem_cons.1 hs
    rw [List.cons_append, name, if_neg hc.ne_backslash, if_pos hc.isNameChar, ih hs]
    rfl

/-- In front of a colon, a name introduces nothing. -/
theorem nameLike_append_colon (hc : c ≠ '\\') (hs : ∀ c ∈ s, PlainChar c) (t : List Char) :
    nameLike c (s ++ ':' :: t) = (.ident (unescape (c :: s)), (s, ':' :: t)) := by
  have hname : nameAfter c (s ++ ':' :: t) = (s, ':' :: t) := by
    rw [nameAfter, if_neg hc, name_append_colon hs]
  rw [nameLike_ident (by simp [hname]), hname]

/-- A character that may start a name starts nothing else. -/
theorem starts_of_isNameStart (h : isNameStart c = true) :
    isLead c = false ∧ c.isDigit = false ∧ isSign c = false ∧ c ≠ '.' := by
  by_cases hc : c.toNat < 128
  · revert h
    exact of_ascii (p := fun c => isNameStart c = true →
      isLead c = false ∧ c.isDigit = false ∧ isSign c = false ∧ c ≠ '.') (by decide) hc
  · have hne {d : Char} (hd : d.toNat < 128) : c ≠ d := fun heq => hc (heq ▸ hd)
    have hdigit : c.isDigit = false := by
      rw [Bool.eq_false_iff]
      exact fun hdigit => hc (HasCode.toNat_lt (.inl hdigit))
    simp [isLead, isSpace, isNewline, isSign, hdigit, hne]

theorem startsDigits_of_isNameStart (h : isNameStart c = true) (t : List Char) :
    startsDigits (c :: t) = false := by
  obtain ⟨-, hdigit, -, hdot⟩ := starts_of_isNameStart h
  unfold startsDigits
  split
  · rename_i heq
    exact absurd (List.cons.inj heq).1 hdot
  · rename_i heq
    rw [← (List.cons.inj heq).1, hdigit]
  · rfl

theorem PlainStart.startsName_append (h : PlainStart s) (t : List Char) :
    startsName (s ++ t) = true := by
  cases h with
  | @letter c hc s =>
    have hne : c ≠ '-' ∧ c ≠ '\\' := by
      constructor
      all_goals
        rintro rfl
        cases hc
    rw [List.cons_append, startsName]
    · exact hc
    · exact fun _ hdash => absurd hdash hne.1
    · exact fun _ _ hdash => absurd hdash hne.1
    · exact hne.2
  | @hyphen c hc s =>
    rw [List.cons_append, List.cons_append, startsName]
    · simpa using hc
    · rintro rfl
      rcases hc with hc | hc <;> cases hc

theorem PlainStart.tokenAt (h : PlainStart (c :: s)) (hs : ∀ x ∈ s, PlainChar x) (t : List Char) :
    tokenAt c (s ++ ':' :: t) = nameLike c (s ++ ':' :: t) := by
  have hname := h.startsName_append (':' :: t)
  rw [List.cons_append] at hname
  cases h with
  | letter hc s =>
    obtain ⟨hlead, hdigit, hsign, hdot⟩ := starts_of_isNameStart hc
    have hdash : c ≠ '-' := by
      rintro rfl
      cases hsign
    rw [tokenAt_of_not_isLead hlead]
    simp [hdigit, hsign, hdot, hdash, hname]
  | @hyphen d hc s =>
    have hdigits : startsDigits (d :: s ++ ':' :: t) = false := by
      rcases hc with rfl | hc
      · rfl
      · exact startsDigits_of_isNameStart hc _
    have hclose : ¬ ∃ u, d :: s ++ ':' :: t = '-' :: '>' :: u := by
      rintro ⟨u, hu⟩
      have hu := (List.cons.inj hu).2
      cases s with
      | nil => cases hu
      | cons x s =>
        rw [(List.cons.inj hu).1] at hs
        have hx := (hs '>' (by simp)).isNameChar
        revert hx
        decide
    rw [tokenAt_of_not_isLead rfl, hdigits, hyphen_of_not_closing hclose, if_pos hname]
    rfl

/-- **A name that stands for itself is one lexeme in front of a colon.** -/
theorem PlainName.lex_append (h : PlainName p) (t : List Char) :
    lex (p.toList ++ ':' :: t) = ⟨.ident p.toList, p.toList⟩ :: ⟨.colon, [':']⟩ :: lex t := by
  have hplain := h.plainChar
  have hunescape := h.unescape_eq
  have hstart := h.start
  generalize p.toList = s at *
  obtain ⟨c, s, rfl⟩ := List.exists_cons_of_ne_nil (l := s) (by rintro rfl; cases hstart)
  obtain ⟨hc, hs⟩ := List.forall_mem_cons.1 hplain
  have hcolon : lex (':' :: t) = ⟨.colon, [':']⟩ :: lex t := by
    rw [lex]
    rfl
  rw [List.cons_append, lex, hstart.tokenAt hs, nameLike_append_colon hc.ne_backslash hs, hcolon,
    hunescape]

/-! ## Values -/

/-- A value that may stand in a declaration as it is. -/
structure PlainValue (v : String) : Prop where
  inhabited : v ≠ ""
  trimmed : Text.trimmed v = v
  /-- Strings, comments, addresses and escapes are closed: only the last lexeme could be open. -/
  closed : ∀ l ∈ (lex v.toList).getLast?, l.isClosed = true
  balanced : openAfter [] (lex v.toList) = []
  /-- Semicolons stand inside of brackets only. -/
  single : ∀ i (h : i < (lex v.toList).length), (lex v.toList)[i].token = .semicolon →
    openAfter [] ((lex v.toList).take i) ≠ []
  /-- Comments in front of a value are not a part of it. -/
  start : ∀ l ∈ (lex v.toList).head?, l.token ≠ .comment

instance : DecidablePred PlainValue := fun v =>
  decidable_of_iff
    (v ≠ "" ∧ Text.trimmed v = v ∧ (∀ l ∈ (lex v.toList).getLast?, l.isClosed = true) ∧
      openAfter [] (lex v.toList) = [] ∧
      (∀ i (h : i < (lex v.toList).length), (lex v.toList)[i].token = .semicolon →
        openAfter [] ((lex v.toList).take i) ≠ []) ∧
      ∀ l ∈ (lex v.toList).head?, l.token ≠ .comment)
    ⟨fun ⟨h1, h2, h3, h4, h5, h6⟩ => ⟨h1, h2, h3, h4, h5, h6⟩,
      fun ⟨h1, h2, h3, h4, h5, h6⟩ => ⟨h1, h2, h3, h4, h5, h6⟩⟩

theorem isBlank_of_isSpace (h : isSpace c = true) : Text.isBlank c = true := by
  simp only [isSpace, isNewline, Bool.or_eq_true, beq_iff_eq] at h
  rcases h with (rfl | rfl) | (rfl | rfl) | rfl <;> rfl

theorem nameLike_ne_space (c : Char) (t : List Char) : (nameLike c t).1 ≠ .space := by
  unfold nameLike
  dsimp only
  split
  · split <;> simp
  · simp

theorem hyphen_ne_space (t : List Char) : (hyphen t).1 ≠ .space := by
  unfold hyphen
  split
  · simp
  · split
    · exact nameLike_ne_space _ _
    · simp

theorem slash_ne_space (t : List Char) : (slash t).1 ≠ .space := by
  unfold slash
  split <;> simp

theorem punctuation_ne_space (c : Char) : punctuation c ≠ .space := by
  unfold punctuation
  repeat' split
  all_goals simp

/-- Only blanks are read as blanks. -/
theorem isSpace_of_tokenAt (h : (tokenAt c t).1 = .space) : isSpace c = true := by
  by_contra hspace
  revert h
  rw [tokenAt, if_neg hspace]
  repeat' split
  all_goals
    first
    | exact slash_ne_space _
    | exact hyphen_ne_space _
    | exact nameLike_ne_space _ _
    | exact punctuation_ne_space _
    | simp

theorem lex_blank (h : ∀ c ∈ t.head?, isSpace c = false) :
    lex (' ' :: t) = ⟨.space, [' ']⟩ :: lex t := by
  have hspanning : Cut.spanning isSpace t = ([], t) := by
    cases t with
    | nil => rfl
    | cons c t => simp [Cut.spanning, h c rfl]
  have htoken : tokenAt ' ' t = (.space, Cut.spanning isSpace t) := rfl
  rw [lex, htoken, hspanning]

namespace PlainValue

theorem trim_eq (h : PlainValue v) : Text.trim v.toList = v.toList := by
  have htrimmed := h.trimmed
  rwa [Text.trimmed, ← String.toList_inj, String.toList_ofList] at htrimmed

theorem isSpace_head (h : PlainValue v) : ∀ c ∈ v.toList.head?, isSpace c = false := by
  intro c hc
  rw [← h.trim_eq] at hc
  rw [Bool.eq_false_iff]
  intro hspace
  exact absurd (isBlank_of_isSpace hspace) (by simp [Text.head?_trim hc])

/-- Nothing in front of a value is skipped. -/
theorem skipBlanks_eq (h : PlainValue v) : skipBlanks (lex v.toList) = lex v.toList := by
  have hspace := h.isSpace_head
  have hcomment := h.start
  refine Text.dropWhile_eq_self fun l hl => ?_
  cases hv : v.toList with
  | nil =>
    rw [hv, lex] at hl
    cases hl
  | cons c t =>
    rw [hv] at hspace
    have hne : l.token ≠ .space := by
      intro hblank
      rw [hv, lex, List.head?_cons, Option.some.injEq] at hl
      have htoken := isSpace_of_tokenAt (c := c) (t := t) (by rw [← hblank, ← hl])
      rw [hspace c rfl] at htoken
      cases htoken
    simp [hne, hcomment l hl]

end PlainValue

/-! ## Declarations -/

/-- The lexemes of a declaration. -/
theorem lex_declaration (hp : PlainName p) (hv : PlainValue v) :
    lex (" " ++ p ++ ": " ++ v).toList =
      ⟨.space, [' ']⟩ :: ⟨.ident p.toList, p.toList⟩ :: ⟨.colon, [':']⟩ :: ⟨.space, [' ']⟩ ::
        lex v.toList := by
  have htext : (" " ++ p ++ ": " ++ v).toList = ' ' :: (p.toList ++ ':' :: ' ' :: v.toList) := by
    simp
  have hhead : ∀ c ∈ (p.toList ++ ':' :: ' ' :: v.toList).head?, isSpace c = false := by
    obtain ⟨c, s, hs⟩ := List.exists_cons_of_ne_nil (l := p.toList) (by simpa using hp.inhabited)
    have hplain := hp.plainChar
    rw [hs] at hplain ⊢
    rintro _ ⟨⟩
    exact (hplain c List.mem_cons_self).isSpace_eq
  rw [htext, lex_blank hhead, hp.lex_append, lex_blank hv.isSpace_head]

/-- A lexeme that is no semicolon and opens and closes nothing may be put in front. -/
theorem single_cons (hl : l.token ≠ .semicolon) (hopen : openBehind stack l.token = stack)
    (h : ∀ i (hi : i < ls.length), ls[i].token = .semicolon → openAfter stack (ls.take i) ≠ []) :
    ∀ i (hi : i < (l :: ls).length), (l :: ls)[i].token = .semicolon →
      openAfter stack ((l :: ls).take i) ≠ [] := by
  intro i hi hsemicolon
  cases i with
  | zero => exact absurd hsemicolon hl
  | succ i =>
    rw [List.take_succ_cons, openAfter, List.foldl_cons, hopen]
    exact h i (by simpa using hi) hsemicolon

theorem segment_declaration (hp : PlainName p) (hv : PlainValue v) :
    Segment (" " ++ p ++ ": " ++ v) := by
  have hlex := lex_declaration hp hv
  have hne : lex v.toList ≠ [] := by
    intro hnil
    have htext := textOf_lex v.toList
    rw [hnil] at htext
    exact hv.inhabited (String.toList_eq_nil_iff.1 htext.symm)
  refine ⟨?_, ?_, ?_, ?_⟩
  · rw [hlex]
    intro l hl
    obtain ⟨l', ls, hls⟩ := List.exists_cons_of_ne_nil hne
    rw [hls] at hl
    exact hv.closed l (by rwa [hls])
  · rw [hlex]
    exact hv.balanced
  · rw [hlex]
    refine single_cons ?_ rfl <| single_cons ?_ rfl <| single_cons ?_ rfl <| single_cons ?_ rfl hv.single
    all_goals simp
  · rw [hlex]
    exact ⟨⟨.colon, [':']⟩, by simp, by simp, by simp⟩

theorem pair?_declaration (hp : PlainName p) (hv : PlainValue v) (terminated : Bool) :
    (Entry.mk (lex (" " ++ p ++ ": " ++ v).toList) terminated).pair? = some (p, v) := by
  have hcore : (Entry.mk (lex (" " ++ p ++ ": " ++ v).toList) terminated).core =
      ⟨.ident p.toList, p.toList⟩ :: ⟨.colon, [':']⟩ :: ⟨.space, [' ']⟩ :: lex v.toList := by
    rw [Entry.core, lex_declaration hp hv]
    rfl
  have hvalue : skipBlanks (⟨.space, [' ']⟩ :: lex v.toList) = lex v.toList := hv.skipBlanks_eq
  have hne : v.toList.isEmpty = false := by simpa using hv.inhabited
  have hcolon (ls : List Lexeme) :
      skipBlanks (⟨.colon, [':']⟩ :: ls) = ⟨.colon, [':']⟩ :: ls := rfl
  unfold Entry.pair?
  rw [hcore]
  simp only [hcolon, hvalue, textOf_lex, hv.trim_eq, hne]
  simp

end AtomicCss.Css
