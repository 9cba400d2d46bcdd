import AtomicCss.Format.Numeral

/-!
# JSON values

A JSON text may hold strings that are no Unicode text, because an escape can name one half of a
surrogate pair alone. The type of the strings is therefore a parameter: a reader gives
`Json (Option String)`, and `Json.checked?` takes the values on from which everything is text.
-/

namespace AtomicCss

/-- A JSON value with strings of type `τ`. Members of an object stay in order and may repeat. -/
inductive Json (τ : Type) where
  | null
  | bool (b : Bool)
  /-- A number as it is written. -/
  | number (numeral : String)
  | string (text : τ)
  | array (items : List (Json τ))
  | object (members : List (τ × Json τ))

namespace Json

mutual

/-- The depth to which arrays and objects are nested. -/
def depth : Json τ → Nat
  | array items => depthOfItems items + 1
  | object members => depthOfMembers members + 1
  | _ => 0

/-- The greatest depth of the items of an array. -/
def depthOfItems : List (Json τ) → Nat
  | [] => 0
  | j :: js => max (depth j) (depthOfItems js)

/-- The greatest depth of the members of an object. -/
def depthOfMembers : List (τ × Json τ) → Nat
  | [] => 0
  | (_, j) :: ms => max (depth j) (depthOfMembers ms)

end

mutual

/-- The value, if all of its strings are texts and doubles can hold all of its numbers. -/
def checked? : Json (Option String) → Option (Json String)
  | null => some .null
  | bool b => some (.bool b)
  | number numeral => if Numeral.fits numeral.toList then some (.number numeral) else none
  | string text => text.map .string
  | array items => (checkedItems? items).map .array
  | object members => (checkedMembers? members).map .object

/-- `checked?` on the items of an array. -/
def checkedItems? : List (Json (Option String)) → Option (List (Json String))
  | [] => some []
  | j :: js => do return (← checked? j) :: (← checkedItems? js)

/-- `checked?` on the members of an object, its keys included. -/
def checkedMembers? : List (Option String × Json (Option String)) →
    Option (List (String × Json String))
  | [] => some []
  | (key, j) :: ms => do return (← key, ← checked? j) :: (← checkedMembers? ms)

end

end Json

end AtomicCss
