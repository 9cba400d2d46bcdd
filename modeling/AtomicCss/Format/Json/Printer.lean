import AtomicCss.Format.Json
import AtomicCss.Format.Json.Quoted

/-!
# Writing JSON

A value is written over several lines: each item of an array and each member of an object stands
on a line of its own, indented by two spaces for each enclosing array or object.
-/

namespace AtomicCss.Json

/-- The start of a line at a depth. -/
def lineStart (depth : Nat) : List Char := '\n' :: List.replicate (2 * depth) ' '

mutual

/-- A value that stands at a depth. -/
def write (depth : Nat) : Json String → List Char
  | null => "null".toList
  | bool b => (if b then "true" else "false").toList
  | number numeral => numeral.toList
  | string text => Quoted.write text.toList
  | array [] => ['[', ']']
  | array (j :: js) =>
    '[' :: lineStart (depth + 1) ++ write (depth + 1) j ++ writeItems (depth + 1) js ++
      lineStart depth ++ [']']
  | object [] => ['\x7b', '\x7d']
  | object ((key, j) :: ms) =>
    '\x7b' :: lineStart (depth + 1) ++ Quoted.write key.toList ++ [':', ' '] ++
      write (depth + 1) j ++ writeMembers (depth + 1) ms ++ lineStart depth ++ ['\x7d']

/-- The items of an array behind its first one. -/
def writeItems (depth : Nat) : List (Json String) → List Char
  | [] => []
  | j :: js => ',' :: lineStart depth ++ write depth j ++ writeItems depth js

/-- The members of an object behind its first one. -/
def writeMembers (depth : Nat) : List (String × Json String) → List Char
  | [] => []
  | (key, j) :: ms =>
    ',' :: lineStart depth ++ Quoted.write key.toList ++ [':', ' '] ++ write depth j ++
      writeMembers depth ms

end

def pretty (j : Json String) : String := String.ofList (write 0 j)

end AtomicCss.Json
