import AtomicCss.Text

/-!
# Tokens of content

Any word-like run of a content may hold the name of a class, so the tokens of a content are an
over-approximation: its runs, their pieces between dots, what stands behind each of their colons,
and each of these without the punctuation around it. A token that no generator knows is harmless.
-/

namespace AtomicCss.Usage

def isTokenChar (c : Char) : Bool :=
  c.isAlphanum || c == '_' || c == ':' || c == '/' || c == '.' || c == '%' || c == '@' || c == '-'

def runs (s : List Char) : List (List Char) :=
  (Text.fields (!isTokenChar ·) s).filter (!·.isEmpty)

/-- Punctuation in front of a run that belongs to no class. -/
def isLeading (c : Char) : Bool := c == ':' || c == '.'

/-- Punctuation behind a run that belongs to no class. -/
def isTrailing (c : Char) : Bool := c == ':' || c == '.' || c == '-' || c == '/'

/-- A run without the punctuation around it; a hyphen in front stays, as in a negative value. -/
def signed (s : List Char) : List Char :=
  Text.dropEndWhile isTrailing (s.dropWhile isLeading)

/-- A run without the punctuation around it, hyphens included. -/
def bare (s : List Char) : List Char :=
  Text.dropEndWhile isTrailing (s.dropWhile fun c => isLeading c || c == '-')

def afterColons : List Char → List (List Char)
  | [] => []
  | c :: cs => if c = ':' then cs :: afterColons cs else afterColons cs

/-- The candidates that one run leads to. -/
def candidates (run : List Char) : List (List Char) :=
  let token := bare run
  let pieces := if token.contains '.' then (Text.fields (· == '.') token).map bare else []
  token :: signed run :: pieces ++ (afterColons token).map bare

/-- Whether a candidate can be the name of a class: it has a letter. -/
def isToken (s : List Char) : Bool := s.any Char.isAlpha

/-- The tokens of a content, each once and in order. -/
def tokens (content : String) : List String :=
  let found := ((runs content.toList).flatMap candidates).filter isToken
  ((found.map String.ofList).mergeSort (· ≤ ·)).eraseReps

end AtomicCss.Usage
