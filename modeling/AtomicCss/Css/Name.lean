import AtomicCss.Css.Cut

/-!
# Names in style sheets

Which characters a name may hold, how the others are escaped in it, and how far a written name
goes. A name is read as it is written; `unescape` gives the name that is meant.
-/

namespace AtomicCss.Css

/-! ### Character classes -/

def isNewline (c : Char) : Bool := c == '\n' || c == '\r' || c == '\x0c'

/-- Blanks of a style sheet: fewer than the blanks of `Text`. -/
def isSpace (c : Char) : Bool := c == ' ' || c == '\t' || isNewline c

def isHexDigit (c : Char) : Bool :=
  c.isDigit || ('a' ≤ c && c ≤ 'f') || ('A' ≤ c && c ≤ 'F')

/-- Characters that may start a name: letters, the underscore, NUL and all beyond ASCII. -/
def isNameStart (c : Char) : Bool :=
  c.isAlpha || c == '_' || c == '\x00' || 0x80 ≤ c.toNat

/-- Characters that may go on with a name. -/
def isNameChar (c : Char) : Bool := isNameStart c || c.isDigit || c == '-'

/-- Control characters that no address may hold. -/
def isNonPrintable (c : Char) : Bool :=
  let n := c.toNat
  (0x1 ≤ n && n ≤ 0x8) || n == 0xB || (0xE ≤ n && n ≤ 0x1F) || n == 0x7F

/-! ### Escapes and names -/

/-- One line break, a carriage return with its line feed counting as one. -/
def newline : List Char → Cut
  | '\r' :: '\n' :: r => (['\r', '\n'], r)
  | c :: r => if isNewline c then ([c], r) else Cut.none (c :: r)
  | [] => Cut.none []

/-- One blank, a carriage return with its line feed counting as one. -/
def space : List Char → Cut
  | c :: r => if c == ' ' || c == '\t' then ([c], r) else newline (c :: r)
  | [] => Cut.none []

def hexDigits : Nat → List Char → Cut
  | n + 1, c :: r => if isHexDigit c then Cut.cons c (hexDigits n r) else Cut.none (c :: r)
  | _, s => Cut.none s

/-- An escape, after its backslash: up to six hexadecimal digits and one blank, or any character. -/
def escape : List Char → Cut
  | [] => Cut.none []
  | c :: r => if isHexDigit c then (hexDigits 6 (c :: r)).andThen space else ([c], r)

/-- Whether a backslash in front of `r` starts an escape. -/
def escapable : List Char → Bool
  | c :: _ => !isNewline c
  | [] => true

theorem of_newline (s : List Char) : Cut.Of s (newline s) := by
  unfold newline; split
  · rfl
  · split <;> rfl
  · rfl

theorem of_space (s : List Char) : Cut.Of s (space s) := by
  unfold space; split
  · split
    · rfl
    · exact of_newline _
  · rfl

theorem of_hexDigits (n : Nat) (s : List Char) : Cut.Of s (hexDigits n s) := by
  fun_induction hexDigits n s with
  | case1 n c r _ ih => exact Cut.of_cons ih
  | case2 => rfl
  | case3 => rfl

theorem of_escape (s : List Char) : Cut.Of s (escape s) := by
  unfold escape; split
  · rfl
  · split
    · exact Cut.of_andThen (of_hexDigits _ _) of_space
    · rfl

theorem length_escape (s : List Char) : (escape s).2.length ≤ s.length :=
  Cut.length_le (of_escape s)

/-- A name as it is written: name characters and escapes. -/
def name : List Char → Cut
  | [] => Cut.none []
  | c :: r =>
    if c = '\\' then
      if escapable r then Cut.cons c ((escape r).1 ++ (name (escape r).2).1, (name (escape r).2).2)
      else Cut.none (c :: r)
    else if isNameChar c then Cut.cons c (name r)
    else Cut.none (c :: r)
termination_by s => s.length
decreasing_by
  all_goals
    have := length_escape r
    simp
    try omega

theorem of_name (s : List Char) : Cut.Of s (name s) := by
  fun_induction name s with
  | case1 => rfl
  | case2 r _ ih =>
    apply Cut.of_cons
    have h := of_escape r
    simp only [Cut.Of] at *
    rw [List.append_assoc, ih, h]
  | case3 => rfl
  | case4 c r _ _ ih => exact Cut.of_cons ih
  | case5 => rfl

/-- The character with code `n`; the replacement character stands for codes that name none. -/
def charOfCode (n : Nat) : Char :=
  if n ≠ 0 ∧ n.isValidChar then Char.ofNat n else '\uFFFD'

def hexValue (ds : List Char) : Nat :=
  ds.foldl (fun n c =>
    16 * n + (if c.isDigit then c.toNat - 48 else if c.isUpper then c.toNat - 55 else c.toNat - 87)) 0

/-- The character that an escape stands for, from its text after the backslash. -/
def escapedChar : List Char → Char
  | [] => '\uFFFD'
  | c :: r =>
    if isHexDigit c then charOfCode (hexValue ((c :: r).takeWhile isHexDigit))
    else if c = '\x00' then '\uFFFD'
    else c

/-- The name that a written name stands for. -/
def unescape : List Char → List Char
  | [] => []
  | c :: r =>
    if c = '\\' then escapedChar (escape r).1 :: unescape (escape r).2
    else (if c = '\x00' then '\uFFFD' else c) :: unescape r
termination_by s => s.length
decreasing_by
  all_goals
    have := length_escape r
    simp
    try omega

/-- Whether the input goes on with a name. -/
def startsName : List Char → Bool
  | '-' :: '\\' :: r => escapable r
  | '-' :: c :: _ => c == '-' || isNameStart c
  | '\\' :: r => escapable r
  | c :: _ => isNameStart c
  | [] => false

end AtomicCss.Css
