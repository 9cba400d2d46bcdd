import AtomicCss.Text

/-!
# Writing identifiers

A class may hold any characters; in a selector, those that a name cannot hold are escaped. A
leading digit and control characters are written by their code, other ASCII characters behind a
backslash, and characters beyond ASCII stand as they are.
-/

namespace AtomicCss.Css

/-- The escape of a character by its hexadecimal code, closed by a space. -/
def codeEscape (c : Char) : List Char :=
  '\\' :: Nat.toDigits 16 c.toNat ++ [' ']

/-- How one character stands in a name. -/
def escapeNameChar (c : Char) : List Char :=
  if c.isAlphanum || c == '_' || c == '-' || 0x80 ≤ c.toNat then [c]
  else if c == '\x00' then ['\uFFFD']
  else if c.toNat ≤ 0x1F || c.toNat == 0x7F then codeEscape c
  else ['\\', c]

/-- How the characters behind a name's start stand in it. -/
def escapeName (s : List Char) : List Char := s.flatMap escapeNameChar

/-- A name whose first character may not be a digit. -/
def escapeNameStart : List Char → List Char
  | [] => []
  | c :: r => (if c.isDigit then codeEscape c else escapeNameChar c) ++ escapeName r

/-- The identifier that stands for a text. -/
def escapeIdentifier : List Char → List Char
  | ['-'] => ['\\', '-']
  | '-' :: '-' :: r => '-' :: '-' :: escapeName r
  | '-' :: r => '-' :: escapeNameStart r
  | s => escapeNameStart s

def classSelector (className : String) : String :=
  String.ofList ('.' :: escapeIdentifier className.toList)

end AtomicCss.Css
