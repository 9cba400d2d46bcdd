import AtomicCss.Block
import AtomicCss.Css.Lexeme

/-!
# Declaration lists

A list such as `color: red; padding: 4px 8px` is cut at its top-level semicolons, those outside
of all blocks. Each entry is read on its own: a property, a colon and a value, which is kept as it
is written. An entry of another form is reported and leaves its neighbours alone.
-/

namespace AtomicCss.Css

/-- The brackets that are open behind a token. A closing bracket that does not match the
innermost open one closes nothing. -/
def openBehind (stack : List Bracket) : Token → List Bracket
  | .opening b => b :: stack
  | .closing b => if stack.head? = some b then stack.tail else stack
  | _ => stack

/-- One entry of a list, with or without the semicolon that ends it. -/
structure Entry where
  lexemes : List Lexeme
  terminated : Bool
  deriving DecidableEq, Repr

/-- One more lexeme in front of the first entry. -/
def growEntry (l : Lexeme) : List Entry → List Entry
  | [] => [⟨[l], false⟩]
  | e :: es => { e with lexemes := l :: e.lexemes } :: es

/-- The entries between the top-level semicolons; the last one is not terminated. -/
def entries : List Bracket → List Lexeme → List Entry
  | _, [] => [⟨[], false⟩]
  | stack, l :: ls =>
    if l.token = .semicolon ∧ stack = [] then ⟨[], true⟩ :: entries [] ls
    else growEntry l (entries (openBehind stack l.token) ls)

/-- Drops the blanks and comments in front. -/
def skipBlanks (ls : List Lexeme) : List Lexeme :=
  ls.dropWhile fun l => l.token = .space || l.token = .comment

namespace Entry

/-- The entry without the blanks and comments in front. -/
def core (e : Entry) : List Lexeme := skipBlanks e.lexemes

/-- Whether nothing at all is left at the end of the list. -/
def isVoid (e : Entry) : Bool := e.core.isEmpty && !e.terminated

/-- The property and the value of a well-formed entry. -/
def pair? (e : Entry) : Option (String × String) :=
  match e.core with
  | ⟨.ident property, _⟩ :: ls =>
    match skipBlanks ls with
    | ⟨.colon, _⟩ :: ls =>
      let value := Text.trim (textOf (skipBlanks ls))
      if value.isEmpty then none else some (String.ofList property, String.ofList value)
    | _ => none
  | _ => none

/-- What is shown of a malformed entry. -/
def shown (e : Entry) : String :=
  let text := textOf e.core ++ (if e.terminated then [';'] else [])
  String.ofList (Text.trim (Text.dropEndWhile (· == ';') (Text.trim text)))

end Entry

/-- Reads a declaration list: its declarations, set in turn, and the malformed entries. -/
def parseDeclarations (css : String) : Block × List String :=
  let es := (entries [] (lex css.toList)).filter (!·.isVoid)
  let pairs := es.filterMap Entry.pair?
  let malformed := es.filter (·.pair?.isNone)
  (Block.ofList (pairs.map fun p => (p.1, .literal p.2)), malformed.map Entry.shown)

end AtomicCss.Css
