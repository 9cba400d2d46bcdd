import AtomicCss.Css.Literal

/-!
# Lexemes of a style sheet

The lexical grammar of CSS, as far as a list of declarations needs it: which characters belong
together, which of the pieces open or close a block, and which are identifiers. Strings, comments,
addresses in `url(…)`, numbers and escapes are each one piece.

Main statement: `textOf_lex`, the lexemes of an input, put together again, are the input.
-/

namespace AtomicCss.Css

/-- The three kinds of brackets that hold blocks together. -/
inductive Bracket where
  | round
  | square
  | curly
  deriving DecidableEq, Repr

/-- What a lexeme is to a list of declarations. -/
inductive Token where
  /-- Blanks. -/
  | space
  | comment
  | ident (name : List Char)
  | colon
  | semicolon
  /-- An opening bracket, alone or at the end of a function's name. -/
  | opening (bracket : Bracket)
  | closing (bracket : Bracket)
  /-- Numbers, strings, addresses, at-keywords, hashes and single characters. -/
  | other
  deriving DecidableEq, Repr

/-- A token with the characters it was written with. -/
structure Lexeme where
  token : Token
  text : List Char
  deriving DecidableEq, Repr

/-- Whether a written name stands for the one that introduces an address. -/
def isUrlName (written : List Char) : Bool :=
  (unescape written).map Char.toLower == ['u', 'r', 'l']

def nameAfter (c : Char) (r : List Char) : Cut :=
  if c = '\\' then (escape r).andThen name else name r

theorem of_nameAfter (c : Char) (r : List Char) : Cut.Of r (nameAfter c r) := by
  unfold nameAfter; split
  · exact Cut.of_andThen (of_escape r) of_name
  · exact of_name r

/-- A name that starts with `c`, with what it introduces: a function's bracket, an unquoted
address, or nothing. -/
def nameLike (c : Char) (r : List Char) : Token × Cut :=
  let k := nameAfter c r
  match k.2 with
  | '(' :: r' =>
    if isUrlName (c :: k.1) && !startsQuoted r' then
      (.other, (k.1 ++ '(' :: (url r').1, (url r').2))
    else (.opening .round, (k.1 ++ ['('], r'))
  | _ => (.ident (unescape (c :: k.1)), k)

theorem of_nameLike (c : Char) (r : List Char) : Cut.Of r (nameLike c r).2 := by
  have h := of_nameAfter c r
  unfold nameLike
  revert h
  rcases nameAfter c r with ⟨written, rest⟩
  intro h
  simp only [Cut.Of] at h
  subst h
  dsimp only
  split
  · rename_i r'
    split
    · have hu := of_url r'
      simp only [Cut.Of] at *
      simp [hu]
    · simp [Cut.Of]
  · rfl

def slash : List Char → Token × Cut
  | '*' :: r => (.comment, Cut.cons '*' (comment r))
  | r => (.other, Cut.none r)

/-- The opening mark of an HTML comment, which has no meaning in a style sheet. -/
def lessThan : List Char → Cut
  | '!' :: '-' :: '-' :: r => (['!', '-', '-'], r)
  | r => Cut.none r

def hash (r : List Char) : Cut :=
  if startsName r || r.head?.any (fun d => d.isDigit || d == '-') then name r else Cut.none r

def atKeyword (r : List Char) : Cut :=
  if startsName r then name r else Cut.none r

/-- What starts with a hyphen and is no number: the closing mark of an HTML comment, a name, or
the hyphen alone. -/
def hyphen : List Char → Token × Cut
  | '-' :: '>' :: r => (.other, (['-', '>'], r))
  | r => if startsName ('-' :: r) then nameLike '-' r else (.other, Cut.none r)

/-- The token that a single character is. -/
def punctuation (c : Char) : Token :=
  if c = ':' then .colon
  else if c = ';' then .semicolon
  else if c = '(' then .opening .round
  else if c = '[' then .opening .square
  else if c = '{' then .opening .curly
  else if c = ')' then .closing .round
  else if c = ']' then .closing .square
  else if c = '}' then .closing .curly
  else .other

/-- The token that starts with `c`, and the cut behind `c`. -/
def tokenAt (c : Char) (r : List Char) : Token × Cut :=
  if isSpace c then (.space, Cut.spanning isSpace r)
  else if c = '"' || c = '\'' then (.other, quoted c r)
  else if c = '/' then slash r
  else if c = '#' then (.other, hash r)
  else if c = '@' then (.other, atKeyword r)
  else if c = '<' then (.other, lessThan r)
  else if c.isDigit || (isSign c && startsDigits r) then (.other, number r)
  else if c = '.' && r.head?.any Char.isDigit then (.other, decimals r)
  else if c = '-' then hyphen r
  else if startsName (c :: r) then nameLike c r
  else (punctuation c, Cut.none r)

theorem of_tokenAt (c : Char) (r : List Char) : Cut.Of r (tokenAt c r).2 := by
  unfold tokenAt
  split
  · exact Cut.of_spanning _ _
  split
  · exact of_quoted c r
  split
  · unfold slash; split
    · exact Cut.of_cons (of_comment _)
    · rfl
  split
  · dsimp only; unfold hash; split
    · exact of_name r
    · rfl
  split
  · dsimp only; unfold atKeyword; split
    · exact of_name r
    · rfl
  split
  · dsimp only; unfold lessThan; split <;> rfl
  split
  · exact of_number r
  split
  · exact of_decimals r
  split
  · unfold hyphen; split
    · rfl
    · split
      · exact of_nameLike _ _
      · rfl
  split
  · exact of_nameLike c r
  · rfl

theorem length_tokenAt (c : Char) (r : List Char) : (tokenAt c r).2.2.length ≤ r.length :=
  Cut.length_le (of_tokenAt c r)

def lex : List Char → List Lexeme
  | [] => []
  | c :: r =>
    ⟨(tokenAt c r).1, c :: (tokenAt c r).2.1⟩ :: lex (tokenAt c r).2.2
termination_by s => s.length
decreasing_by have := length_tokenAt c r; simp; omega

def textOf (ls : List Lexeme) : List Char := ls.flatMap (·.text)

/-- **Nothing is lost**: the lexemes of an input, put together again, are the input. -/
theorem textOf_lex (s : List Char) : textOf (lex s) = s := by
  fun_induction lex s with
  | case1 => rfl
  | case2 c r ih =>
    have h := of_tokenAt c r
    simp only [Cut.Of] at h
    simp only [textOf, List.flatMap_cons] at *
    rw [ih, List.cons_append, h]

end AtomicCss.Css
