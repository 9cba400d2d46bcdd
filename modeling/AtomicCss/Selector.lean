import AtomicCss.Text

/-!
# Selector lists

A selector list is cut at its commas, except for those inside brackets or quotes. Nesting puts the
selectors of a rule under those of the enclosing one: at each `&`, or else as descendants.
-/

namespace AtomicCss.Selector

/-- Cuts a text at the commas outside of brackets and quotes; `depth` brackets and the quote
`quote` are open in front of it. A closing bracket without an opening one closes nothing. -/
def cut (depth : Nat) (quote : Option Char) : List Char → List (List Char)
  | [] => [[]]
  | c :: cs =>
    match quote with
    | some q => Text.grow c (cut depth (if c = q then none else some q) cs)
    | none =>
      if c = '"' || c = '\'' then Text.grow c (cut depth (some c) cs)
      else if c = '(' || c = '[' then Text.grow c (cut (depth + 1) none cs)
      else if c = ')' || c = ']' then Text.grow c (cut (depth - 1) none cs)
      else if c = ',' && depth = 0 then [] :: cut 0 none cs
      else Text.grow c (cut depth none cs)

/-- The selectors of a list, trimmed, without the empty ones. -/
def splitList (text : String) : List String :=
  (((cut 0 none text.toList).map Text.trim).filter (!·.isEmpty)).map String.ofList

def under (parent child : String) : String :=
  if child.toList.contains '&' then
    String.ofList (child.toList.flatMap fun c => if c = '&' then parent.toList else [c])
  else parent ++ " " ++ child

/-- The selectors of a list under every enclosing selector, outermost choice first. Without an
enclosing list the selectors stand for themselves. -/
def nest (parents : Option (List String)) (text : String) : List String :=
  match parents with
  | none => splitList text
  | some ps => ps.flatMap fun p => (splitList text).map (under p)

end AtomicCss.Selector
