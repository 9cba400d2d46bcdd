import AtomicCss.Format.Json
import AtomicCss.Format.Json.Quoted
import AtomicCss.Format.Nesting
import AtomicCss.Text

/-!
# Reading JSON

A text is cut into tokens, blanks between them being dropped. Each group of brackets is then closed
into the array or object that its members form.
-/

namespace AtomicCss.Json

open AtomicCss.Nesting (Bracket)

/-- A value as it is read: strings may be no text. -/
abbrev Raw := Json (Option String)

/-- What stands between brackets. -/
inductive Member where
  | value (j : Raw)
  | comma
  | colon

/-! ### Tokens -/

/-- The blanks that may stand between tokens. -/
def isSpace (c : Char) : Bool := c == ' ' || c == '\t' || c == '\n' || c == '\r'

def isNumeralChar (c : Char) : Bool :=
  c.isDigit || c == '-' || c == '+' || c == '.' || c == 'e' || c == 'E'

/-- The value that a word stands for. -/
def word? (s : List Char) : Option Raw :=
  if s = ['n', 'u', 'l', 'l'] then some .null
  else if s = ['t', 'r', 'u', 'e'] then some (.bool true)
  else if s = ['f', 'a', 'l', 's', 'e'] then some (.bool false)
  else none

/-- The token of a mark, which is a single character. -/
def mark? (c : Char) : Option (Nesting.Token Member) :=
  if c = '[' then some (.opening .square)
  else if c = ']' then some (.closing .square)
  else if c = '\x7b' then some (.opening .curly)
  else if c = '\x7d' then some (.closing .curly)
  else if c = ',' then some (.member .comma)
  else if c = ':' then some (.member .colon)
  else none

/-- A scalar in front of the tokens behind it. -/
def consScalar (j : Option Raw) (rest : Option (List (Nesting.Token Member))) :
    Option (List (Nesting.Token Member)) := do
  return .member (.value (← j)) :: (← rest)

def tokens? : List Char → Option (List (Nesting.Token Member))
  | [] => some []
  | c :: s =>
    if isSpace c then tokens? s
    else if c = '"' then
      match h : Quoted.pieces s with
      | none => none
      | some (ps, rest) =>
        have : rest.length < s.length := Quoted.length_of_pieces h
        consScalar (some (.string ((Quoted.text? ps).map String.ofList))) (tokens? rest)
    else if c.isDigit || c = '-' then
      let numeral := c :: s.takeWhile isNumeralChar
      have := Text.length_dropWhile_le isNumeralChar s
      consScalar (if Numeral.isNumeral numeral then some (.number (String.ofList numeral)) else none)
        (tokens? (s.dropWhile isNumeralChar))
    else if c.isAlpha then
      have := Text.length_dropWhile_le Char.isAlpha s
      consScalar (word? (c :: s.takeWhile Char.isAlpha)) (tokens? (s.dropWhile Char.isAlpha))
    else
      match mark? c, tokens? s with
      | some t, some ts => some (t :: ts)
      | _, _ => none
termination_by s => s.length
decreasing_by all_goals simp only [List.length_cons]; omega

/-! ### Values -/

def Member.isComma : Member → Bool
  | comma => true
  | _ => false

/-- The value that fills one field of an array. -/
def item? : List Member → Option Raw
  | [.value j] => some j
  | _ => none

/-- The key and the value that fill one field of an object. -/
def at? : List Member → Option (Option String × Raw)
  | [.value (.string key), .colon, .value j] => some (key, j)
  | _ => none

/-- The value that a group is closed into. -/
def close? (b : Bracket) (members : List Member) : Option Member :=
  match b, members with
  | .square, [] => some (.value (.array []))
  | .curly, [] => some (.value (.object []))
  | .square, members => do
    return .value (.array (← (Text.fields Member.isComma members).mapM item?))
  | .curly, members => do
    return .value (.object (← (Text.fields Member.isComma members).mapM at?))

/-- The value that a text stands for. -/
def read? (s : String) : Option Raw := do
  match ← Nesting.members close? (← tokens? s.toList) with
  | [.value j] => some j
  | _ => none

end AtomicCss.Json
