import AtomicCss.Css.DeclarationList
import AtomicCss.Proofs.Block
import AtomicCss.Proofs.Css.Lexeme
import AtomicCss.Proofs.Text
import Mathlib.Data.List.Infix

/-! # Lists of declarations, segment by segment

A segment is a text that may stand between two semicolons of a list. A list that is put together from
segments has an entry for each of them (`listed_intercalate`), so its declarations are those of its
segments, set in turn, and a malformed segment leaves the others alone
(`parseDeclarations_intercalate`). -/

namespace AtomicCss.Css

variable {s : String} {segs : List String} {stack : List Bracket} {ls : List Lexeme} {u : List Char}

/-! ## Segments -/

/-- The brackets that are open behind lexemes. -/
def openAfter (stack : List Bracket) (ls : List Lexeme) : List Bracket :=
  ls.foldl (fun stack l => openBehind stack l.token) stack

/-- A text that may stand between two semicolons of a list of declarations. -/
structure Segment (s : String) : Prop where
  /-- Strings, comments, addresses and escapes are closed: only the last lexeme could be open. -/
  closed : ∀ l ∈ (lex s.toList).getLast?, l.isClosed = true
  balanced : openAfter [] (lex s.toList) = []
  /-- Semicolons stand inside of brackets only. -/
  single : ∀ i (h : i < (lex s.toList).length), (lex s.toList)[i].token = .semicolon →
    openAfter [] ((lex s.toList).take i) ≠ []
  inhabited : ∃ l ∈ lex s.toList, l.token ≠ .space ∧ l.token ≠ .comment

instance : DecidablePred Segment := fun s =>
  decidable_of_iff
    ((∀ l ∈ (lex s.toList).getLast?, l.isClosed = true) ∧ openAfter [] (lex s.toList) = [] ∧
      (∀ i (h : i < (lex s.toList).length), (lex s.toList)[i].token = .semicolon →
        openAfter [] ((lex s.toList).take i) ≠ []) ∧
      ∃ l ∈ lex s.toList, l.token ≠ .space ∧ l.token ≠ .comment)
    ⟨fun ⟨h1, h2, h3, h4⟩ => ⟨h1, h2, h3, h4⟩, fun ⟨h1, h2, h3, h4⟩ => ⟨h1, h2, h3, h4⟩⟩

/-! ## Entries -/

theorem growEntry_foldr (ls : List Lexeme) (e : Entry) (es : List Entry) :
    ls.foldr growEntry (e :: es) = { e with lexemes := ls ++ e.lexemes } :: es := by
  induction ls with
  | nil => rfl
  | cons l ls ih =>
    rw [List.foldr_cons, ih]
    rfl

/-- Lexemes without a semicolon outside of brackets belong to one entry. -/
theorem entries_append (rest : List Lexeme)
    (h : ∀ i (hi : i < ls.length), ls[i].token = .semicolon → openAfter stack (ls.take i) ≠ []) :
    entries stack (ls ++ rest) = ls.foldr growEntry (entries (openAfter stack ls) rest) := by
  induction ls generalizing stack with
  | nil => rfl
  | cons l ls ih =>
    have hl : ¬ (l.token = .semicolon ∧ stack = []) := by
      rintro ⟨hl, hstack⟩
      exact h 0 (by simp) hl hstack
    rw [List.cons_append, entries, if_neg hl, ih]
    · rfl
    · intro i hi hsemicolon
      exact h (i + 1) (by simpa using hi) (by simpa using hsemicolon)

/-- The entries of a list that count. -/
def listed (css : String) : List Entry := (entries [] (lex css.toList)).filter (!·.isVoid)

theorem Segment.core_ne_nil (h : Segment s) (b : Bool) : (Entry.mk (lex s.toList) b).core ≠ [] := by
  obtain ⟨l, hl, hspace, hcomment⟩ := h.inhabited
  intro hnil
  have hblank := List.dropWhile_eq_nil_iff.1 hnil l hl
  simp [hspace, hcomment] at hblank

theorem Segment.listed_self (h : Segment s) : listed s = [⟨lex s.toList, false⟩] := by
  have hentries := entries_append [] h.single
  rw [List.append_nil, h.balanced, entries, growEntry_foldr, List.append_nil] at hentries
  have hvoid : (Entry.mk (lex s.toList) false).isVoid = false := by
    simp [Entry.isVoid, h.core_ne_nil]
  simp [listed, hentries, hvoid]

theorem Segment.listed_append (h : Segment s) (t : String) :
    listed (s ++ ";" ++ t) = ⟨lex s.toList, true⟩ :: listed t := by
  have htext : (s ++ ";" ++ t).toList = s.toList ++ ';' :: t.toList := by simp
  have hvoid : (Entry.mk (lex s.toList) true).isVoid = false := by
    simp [Entry.isVoid]
  rw [listed, htext, lex_append _ _ h.closed, entries_append _ h.single, h.balanced, entries,
    if_pos ⟨rfl, rfl⟩, growEntry_foldr, List.append_nil, List.filter_cons, hvoid]
  rfl

theorem listed_empty : listed "" = [] := by
  rw [listed, String.toList_empty, lex]
  rfl

/-- **A list has an entry for each of its segments.** -/
theorem listed_intercalate (h : ∀ s ∈ segs, Segment s) :
    listed (";".intercalate segs) = segs.dropLast.map (fun s => ⟨lex s.toList, true⟩) ++
      segs.getLast?.toList.map (fun s => ⟨lex s.toList, false⟩) := by
  induction segs with
  | nil => exact listed_empty
  | cons s segs ih =>
    obtain ⟨hs, hsegs⟩ := List.forall_mem_cons.1 h
    cases segs with
    | nil => simpa using hs.listed_self
    | cons t segs =>
      rw [String.intercalate_cons_cons, hs.listed_append, ih hsegs, List.dropLast_cons_cons,
        List.map_cons, List.cons_append, List.getLast?_cons_cons]

/-! ## What a list says -/

namespace Entry

/-- The declaration of an entry, if it is well-formed. -/
def pairs (e : Entry) : List (String × Value) := e.pair?.toList.map fun p => (p.1, .literal p.2)

/-- The warning about an entry, if it is malformed. -/
def warnings (e : Entry) : List String := if e.pair?.isNone then [e.shown] else []

end Entry

theorem parseDeclarations_eq (css : String) :
    parseDeclarations css =
      (Block.ofList ((listed css).flatMap Entry.pairs), (listed css).flatMap Entry.warnings) := by
  have hpairs (es : List Entry) : es.flatMap Entry.pairs =
      (es.filterMap Entry.pair?).map fun p => (p.1, .literal p.2) := by
    induction es with
    | nil => rfl
    | cons e es ih => cases hp : e.pair? <;> simp [Entry.pairs, hp, ih]
  have hwarnings (es : List Entry) : es.flatMap Entry.warnings =
      (es.filter (·.pair?.isNone)).map Entry.shown := by
    induction es with
    | nil => rfl
    | cons e es ih => cases hp : e.pair? <;> simp [Entry.warnings, hp, ih]
  rw [hpairs, hwarnings]
  rfl

/-! ## Semicolons at the end of a segment -/

/-- A text that ends with a semicolon in front of blanks. -/
def HidesSemicolon (u : List Char) : Prop :=
  ∃ front blanks, u = front ++ ';' :: blanks ∧ blanks ≠ [] ∧ ∀ c ∈ blanks, Text.isBlank c = true

theorem dropWhile_append_semicolon (front rest : List Char) :
    (front ++ ';' :: rest).dropWhile Text.isBlank = front.dropWhile Text.isBlank ++ ';' :: rest := by
  rw [List.dropWhile_append]
  split
  · rename_i hfront
    rw [List.isEmpty_iff.1 hfront]
    rfl
  · rfl

theorem hidesSemicolon_dropWhile :
    HidesSemicolon (u.dropWhile Text.isBlank) ↔ HidesSemicolon u := by
  constructor
  · rintro ⟨front, blanks, heq, hne, hall⟩
    refine ⟨u.takeWhile Text.isBlank ++ front, blanks, ?_, hne, hall⟩
    rw [List.append_assoc, ← heq, List.takeWhile_append_dropWhile]
  · rintro ⟨front, blanks, rfl, hne, hall⟩
    exact ⟨front.dropWhile Text.isBlank, blanks, dropWhile_append_semicolon _ _, hne, hall⟩

theorem hidesSemicolon_append_iff {front blanks : List Char}
    (hall : ∀ c ∈ blanks, Text.isBlank c = true)
    (hlast : ∀ c, front.getLast? = some c → Text.isBlank c = false) :
    HidesSemicolon (front ++ blanks) ↔ blanks ≠ [] ∧ front.getLast? = some ';' := by
  constructor
  · rintro ⟨front', blanks', heq, hne, hall'⟩
    -- both are what is left without the blanks at the end
    have hfront := congrArg (Text.dropEndWhile Text.isBlank) heq
    rw [Text.dropEndWhile_append hall, Text.dropEndWhile_eq_self hlast, ← List.singleton_append,
      ← List.append_assoc, Text.dropEndWhile_append hall',
      Text.dropEndWhile_eq_self (by simp [Text.isBlank])] at hfront
    rw [hfront, List.append_assoc, List.singleton_append, List.append_cancel_left_eq,
      List.cons.injEq] at heq
    exact ⟨heq.2 ▸ hne, by simp [hfront]⟩
  · rintro ⟨hne, hlast⟩
    obtain ⟨front, rfl⟩ := List.getLast?_eq_some_iff.1 hlast
    exact ⟨front, blanks, by simp, hne, hall⟩

/-- What is shown of a malformed text: without the blanks at its ends and its last semicolons. -/
def strip (u : List Char) : List Char :=
  Text.trim (Text.dropEndWhile (· == ';') (Text.trim u))

theorem strip_append_semicolon :
    strip (u ++ [';']) = Text.trim (Text.dropEndWhile (· == ';') (u.dropWhile Text.isBlank)) := by
  have htrim : Text.trim (u ++ [';']) = u.dropWhile Text.isBlank ++ [';'] := by
    rw [Text.trim, dropWhile_append_semicolon,
      Text.dropEndWhile_eq_self (by simp [Text.isBlank])]
  rw [strip, htrim, Text.dropEndWhile_append (by simp)]

/-- A text that ends with a semicolon is longer than what is shown of it. -/
theorem trim_dropEndWhile_ne (h : u.getLast? = some ';') :
    Text.trim (Text.dropEndWhile (· == ';') u) ≠ u := by
  obtain ⟨front, rfl⟩ := List.getLast?_eq_some_iff.1 h
  rw [Text.dropEndWhile_append (by simp)]
  intro heq
  have hlength := Text.length_trim_le (Text.dropEndWhile (· == ';') front)
  have hle := (Text.dropEndWhile_prefix (· == ';') front).length_le
  rw [heq, List.length_append, List.length_singleton] at hlength
  omega

/-- A semicolon behind a text is not shown, but it keeps the blanks of the text from being taken away in
front of the semicolons that the text ends with. -/
theorem strip_semicolon_iff : strip (u ++ [';']) = strip u ↔ ¬ HidesSemicolon u := by
  obtain ⟨blanks, hblanks, hall⟩ :=
    Text.exists_dropEndWhile Text.isBlank (u.dropWhile Text.isBlank)
  have hblanks : u.dropWhile Text.isBlank = Text.trim u ++ blanks := hblanks
  rw [strip_append_semicolon, ← hidesSemicolon_dropWhile, hblanks,
    hidesSemicolon_append_iff hall fun _ => Text.getLast?_trim]
  by_cases hne : blanks = []
  · simp [hne, strip]
  have hkeep : Text.dropEndWhile (· == ';') (Text.trim u ++ blanks) = Text.trim u ++ blanks := by
    apply Text.dropEndWhile_eq_self
    intro c hc
    rw [List.getLast?_append_of_ne_nil _ hne] at hc
    have hblank := hall c (List.mem_of_getLast? hc)
    rw [beq_eq_false_iff_ne]
    rintro rfl
    cases hblank
  have htrim : Text.trim (Text.trim u ++ blanks) = Text.trim u := by
    rw [← hblanks, Text.trim, List.dropWhile_idempotent]
    rfl
  rw [hkeep, htrim, strip]
  by_cases hlast : (Text.trim u).getLast? = some ';'
  · simp [hne, hlast, (trim_dropEndWhile_ne hlast).symm]
  · rw [Text.dropEndWhile_eq_self, Text.trim_trim]
    · simp [hlast]
    · intro c hc
      rw [beq_eq_false_iff_ne]
      rintro rfl
      exact hlast hc

namespace Entry

theorem pair?_terminated (ls : List Lexeme) :
    (Entry.mk ls true).pair? = (Entry.mk ls false).pair? := rfl

theorem length_warnings_terminated (ls : List Lexeme) :
    (Entry.mk ls true).warnings.length = (Entry.mk ls false).warnings.length := by
  rw [warnings, warnings, pair?_terminated]
  split
  · rw [List.length_singleton, List.length_singleton]
  · rfl

/-- An entry gives one declaration or one warning. -/
theorem size_pairs_add_length_warnings (e : Entry) :
    (Block.ofList e.pairs).size + e.warnings.length = 1 := by
  unfold pairs warnings
  cases e.pair? <;> rfl

theorem warnings_terminated_iff (ls : List Lexeme) :
    (Entry.mk ls true).warnings = (Entry.mk ls false).warnings ↔
      ((Entry.mk ls false).warnings ≠ [] → ¬ HidesSemicolon (textOf (skipBlanks ls))) := by
  rw [warnings, warnings, pair?_terminated]
  split
  · simp only [ne_eq, List.cons_ne_nil, not_false_eq_true, true_imp_iff, List.cons.injEq, and_true]
    rw [← strip_semicolon_iff, shown, shown, String.ofList_inj]
    simp only [Bool.false_eq_true, if_false, if_true, List.append_nil]
    rfl
  · simp

end Entry

/-! ## Segments alone and in a list -/

/-- What is written in a segment behind the blanks and comments in front. -/
def written (s : String) : List Char := textOf (skipBlanks (lex s.toList))

/-- The declarations and warnings that are read of a segment alone. -/
theorem Segment.parse_self (h : Segment s) : parseDeclarations s =
    (Block.ofList (Entry.pairs ⟨lex s.toList, false⟩), Entry.warnings ⟨lex s.toList, false⟩) := by
  rw [parseDeclarations_eq, h.listed_self, List.flatMap_singleton, List.flatMap_singleton]

/-- What is read of a segment with its semicolon. -/
theorem Segment.parse_terminated (h : Segment s) : parseDeclarations (s ++ ";") =
    (Block.ofList (Entry.pairs ⟨lex s.toList, true⟩), Entry.warnings ⟨lex s.toList, true⟩) := by
  have hlisted := h.listed_append ""
  rw [String.append_empty, listed_empty] at hlisted
  rw [parseDeclarations_eq, hlisted, List.flatMap_singleton, List.flatMap_singleton]

theorem flatMap_inj_of_length {α β : Type} {as : List α} {f g : α → List β}
    (h : ∀ a ∈ as, (f a).length = (g a).length) :
    as.flatMap f = as.flatMap g ↔ ∀ a ∈ as, f a = g a := by
  induction as with
  | nil => simp
  | cons a as ih =>
    obtain ⟨ha, has⟩ := List.forall_mem_cons.1 h
    rw [List.flatMap_cons, List.flatMap_cons, List.forall_mem_cons, ← ih has]
    constructor
    · exact fun heq => List.append_inj heq ha
    · rintro ⟨h1, h2⟩
      rw [h1, h2]

theorem eq_dropLast_append (segs : List String) : segs = segs.dropLast ++ segs.getLast?.toList := by
  cases hs : segs.getLast? with
  | none => simp [List.getLast?_eq_none_iff.1 hs]
  | some s => exact (List.dropLast_append_getLast? s hs).symm

/-- The block of a list is that of its segments, merged in turn. -/
theorem block_intercalate (h : ∀ s ∈ segs, Segment s) :
    (parseDeclarations (";".intercalate segs)).1 =
      segs.foldl (fun b s => (b.merge (parseDeclarations s).1).1) ∅ := by
  have hpairs : (listed (";".intercalate segs)).flatMap Entry.pairs =
      segs.flatMap fun s => Entry.pairs ⟨lex s.toList, false⟩ := by
    rw [listed_intercalate h, List.flatMap_append, List.flatMap_map, List.flatMap_map]
    conv_rhs => rw [eq_dropLast_append segs, List.flatMap_append]
    rfl
  rw [parseDeclarations_eq, hpairs, Block.ofList_flatMap]
  refine List.foldl_ext _ _ _ fun b s hs => ?_
  rw [(h s hs).parse_self]

/-- The warnings of a list are those of its segments, each with the semicolon that ends it. -/
theorem warnings_intercalate (h : ∀ s ∈ segs, Segment s) :
    (parseDeclarations (";".intercalate segs)).2 =
      segs.dropLast.flatMap (fun s => (parseDeclarations (s ++ ";")).2) ++
        segs.getLast?.toList.flatMap (fun s => (parseDeclarations s).2) := by
  have hinit : segs.dropLast.flatMap (fun s => (parseDeclarations (s ++ ";")).2) =
      segs.dropLast.flatMap fun s => Entry.warnings ⟨lex s.toList, true⟩ :=
    List.flatMap_congr fun s hs => by rw [(h s (List.mem_of_mem_dropLast hs)).parse_terminated]
  have hlast : segs.getLast?.toList.flatMap (fun s => (parseDeclarations s).2) =
      segs.getLast?.toList.flatMap fun s => Entry.warnings ⟨lex s.toList, false⟩ := by
    refine List.flatMap_congr fun s hs => ?_
    rw [(h s (List.mem_of_getLast? (Option.mem_toList.1 hs))).parse_self]
  rw [hinit, hlast, parseDeclarations_eq, listed_intercalate h, List.flatMap_append,
    List.flatMap_append, List.flatMap_map, List.flatMap_map, List.flatMap_map, List.flatMap_map]

/-- **A malformed declaration leaves the others alone.** A segment gives one declaration or one warning.
The block of a list is that of its segments, merged in turn. Its warnings are those of its segments, each
with the semicolon that ends it; there are as many as of the segments alone. They are the same ones unless
a malformed segment that is not the last one ends with a semicolon of its own in front of blanks. -/
theorem parseDeclarations_intercalate (segs : List String) (h : ∀ s ∈ segs, Segment s) :
    (parseDeclarations (";".intercalate segs)).1 =
      segs.foldl (fun b s => (b.merge (parseDeclarations s).1).1) ∅ ∧
    (parseDeclarations (";".intercalate segs)).2 =
      segs.dropLast.flatMap (fun s => (parseDeclarations (s ++ ";")).2) ++
        segs.getLast?.toList.flatMap (fun s => (parseDeclarations s).2) ∧
    (∀ s ∈ segs, (parseDeclarations s).1.size + (parseDeclarations s).2.length = 1 ∧
      (parseDeclarations (s ++ ";")).2.length = (parseDeclarations s).2.length) ∧
    ((parseDeclarations (";".intercalate segs)).2 =
        segs.flatMap (fun s => (parseDeclarations s).2) ↔
      ∀ s ∈ segs.dropLast, (parseDeclarations s).2 ≠ [] → ¬ HidesSemicolon (written s)) := by
  have hlength : ∀ s ∈ segs,
      (parseDeclarations (s ++ ";")).2.length = (parseDeclarations s).2.length := by
    intro s hs
    rw [(h s hs).parse_terminated, (h s hs).parse_self]
    exact Entry.length_warnings_terminated _
  have hone : ∀ s ∈ segs, (parseDeclarations s).1.size + (parseDeclarations s).2.length = 1 := by
    intro s hs
    rw [(h s hs).parse_self]
    exact Entry.size_pairs_add_length_warnings _
  refine ⟨block_intercalate h, warnings_intercalate h, fun s hs => ⟨hone s hs, hlength s hs⟩, ?_⟩
  have hmem {s : String} (hs : s ∈ segs.dropLast) : s ∈ segs := List.mem_of_mem_dropLast hs
  have hsplit : segs.flatMap (fun s => (parseDeclarations s).2) =
      segs.dropLast.flatMap (fun s => (parseDeclarations s).2) ++
        segs.getLast?.toList.flatMap (fun s => (parseDeclarations s).2) := by
    rw [← List.flatMap_append, ← eq_dropLast_append]
  rw [warnings_intercalate h, hsplit, List.append_cancel_right_eq,
    flatMap_inj_of_length fun s hs => hlength s (hmem hs)]
  refine forall₂_congr fun s hs => ?_
  rw [(h s (hmem hs)).parse_terminated, (h s (hmem hs)).parse_self]
  exact Entry.warnings_terminated_iff _

/-- The segments `a \;` with a blank behind, `/* ; */ b {;}` and two well-formed ones. The first is malformed,
and the blank behind its semicolon makes the difference. -/
theorem parseDeclarations_intercalate_escaped :
    let segs := ["a \\; ", "/* ; */ b \x7b;\x7d", "width: calc(1px; 2px) url(;)", "content: ';'"]
    (∀ s ∈ segs, Segment s) ∧
    (parseDeclarations (";".intercalate segs)).1 =
      segs.foldl (fun b s => (b.merge (parseDeclarations s).1).1) ∅ ∧
    (parseDeclarations (";".intercalate segs)).2 ≠
      segs.flatMap (fun s => (parseDeclarations s).2) := by
  intro segs
  have h : ∀ s ∈ segs, Segment s := by decide +kernel
  obtain ⟨hblock, -, -, hsame⟩ := parseDeclarations_intercalate segs h
  refine ⟨h, hblock, fun heq => ?_⟩
  have hmem : "a \\; " ∈ segs.dropLast := by decide +kernel
  have hmalformed : (parseDeclarations "a \\; ").2 ≠ [] := by decide +kernel
  exact hsame.1 heq _ hmem hmalformed
    ⟨['a', ' ', '\\'], [' '], by decide +kernel, by simp, by simp [Text.isBlank]⟩

end AtomicCss.Css
