import AtomicCss.Format.Nesting
import AtomicCss.Format.Toml
import AtomicCss.Format.Toml.Strings
import AtomicCss.Text

/-!
# Reading TOML

A text is cut into tokens, its brackets are closed into arrays and tables, and what remains is
read line by line. A line is empty, states a table by its header, or sets a key of the table that
was stated last. A text with a value of any other sort than strings, arrays and tables is refused.
-/

namespace AtomicCss.Toml

open AtomicCss.Nesting (Bracket)

/-- What a line consists of, once brackets are closed. -/
inductive Item where
  /-- A name without quotes, which can only be a key. -/
  | bare (name : String)
  /-- A string on one line, which can also be a key. -/
  | string (text : String)
  /-- A string over several lines. -/
  | lines (text : String)
  /-- Square brackets, as an array and as the path in a header. -/
  | group (asArray : Option Toml) (asPath : Option (List String))
  | table (v : Toml)
  | dot
  | equals
  | comma
  | newline

namespace Item

def value? : Item → Option Toml
  | string text => some (.string text)
  | lines text => some (.string text)
  | group asArray _ => asArray
  | table v => some v
  | _ => none

def key? : Item → Option String
  | bare name => some name
  | string text => some text
  | _ => none

def isComma : Item → Bool
  | comma => true
  | _ => false

/-- Whether the item is an equals sign. -/
def isEquals : Item → Bool
  | equals => true
  | _ => false

/-- Whether the item is the end of a line. -/
def isNewline : Item → Bool
  | newline => true
  | _ => false

end Item

/-! ### Tokens -/

def isNameChar (c : Char) : Bool := c.isAlphanum || c == '_' || c == '-'

/-- The token of a mark, which is a single character. -/
def mark? (c : Char) : Option (Nesting.Token Item) :=
  if c = '[' then some (.opening .square)
  else if c = ']' then some (.closing .square)
  else if c = '\x7b' then some (.opening .curly)
  else if c = '\x7d' then some (.closing .curly)
  else if c = '.' then some (.member .dot)
  else if c = '=' then some (.member .equals)
  else if c = ',' then some (.member .comma)
  else if c = '\n' then some (.member .newline)
  else none

/-- Drops the end of a line in front of a text. -/
def dropNewline : List Char → List Char
  | '\n' :: s => s
  | s => s

/-- The string that a quote in front of `s` opens. -/
def string? (q : Char) (s : List Char) : Option (Item × List Char) :=
  let lines (r : Cut) := r.map fun (text, rest) => (Item.lines (String.ofList text), rest)
  let line (r : Cut) := r.map fun (text, rest) => (Item.string (String.ofList text), rest)
  match s with
  | a :: b :: t =>
    if a = q && b = q then
      lines (if q = '"' then basicLines (dropNewline t) else literalLines (dropNewline t))
    else line (if q = '"' then basic s else literal s)
  | _ => line (if q = '"' then basic s else literal s)

/-- Without its line end, a text is no longer than before. -/
theorem length_dropNewline (s : List Char) : (dropNewline s).length ≤ s.length := by
  unfold dropNewline
  split <;> simp

/-- Reading a string leaves less than there was. -/
theorem length_of_string {q : Char} {s rest : List Char} {i : Item}
    (h : string? q s = some (i, rest)) : rest.length < s.length := by
  have hline : ∀ {r : Cut}, (r = basic s ∨ r = literal s) →
      (r.map fun (text, rest) => (Item.string (String.ofList text), rest)) = some (i, rest) →
      rest.length < s.length := by
    intro r hr h
    obtain ⟨⟨text, t⟩, ht, h⟩ := Option.map_eq_some_iff.1 h
    obtain rfl := (Prod.mk.inj h).2
    rcases hr with rfl | rfl
    · exact length_of_basic ht
    · exact length_of_literal ht
  have hchoice : ∀ a b : Cut, (if q = '"' then a else b) = a ∨ (if q = '"' then a else b) = b := by
    intro a b
    split <;> simp
  unfold string? at h
  split at h
  · rename_i a b t
    split at h
    · obtain ⟨⟨text, u⟩, hu, h⟩ := Option.map_eq_some_iff.1 h
      obtain rfl := (Prod.mk.inj h).2
      have := length_dropNewline t
      rcases hchoice (basicLines (dropNewline t)) (literalLines (dropNewline t)) with hc | hc
      · have := length_of_basicLines (hc ▸ hu)
        simp only [List.length_cons]
        omega
      · have := length_of_literalLines (hc ▸ hu)
        simp only [List.length_cons]
        omega
    · exact hline (hchoice _ _) h
  · exact hline (hchoice _ _) h

/-- A token in front of those behind it. -/
def consToken (t : Option (Nesting.Token Item)) (rest : Option (List (Nesting.Token Item))) :
    Option (List (Nesting.Token Item)) := do
  return (← t) :: (← rest)

/-- The tokens of a text. Comments and blanks within lines are dropped. -/
def tokens? : List Char → Option (List (Nesting.Token Item))
  | [] => some []
  | c :: s =>
    if isMargin c then tokens? s
    else if c = '#' then
      have := Text.length_dropWhile_le (· != '\n') s
      if (s.takeWhile (· != '\n')).all isPlain then tokens? (s.dropWhile (· != '\n')) else none
    else if c = '"' || c = '\'' then
      match h : string? c s with
      | some (i, rest) =>
        have := length_of_string h
        consToken (some (.member i)) (tokens? rest)
      | none => none
    else if isNameChar c then
      have := Text.length_dropWhile_le isNameChar s
      consToken (some (.member (.bare (String.ofList (c :: s.takeWhile isNameChar)))))
        (tokens? (s.dropWhile isNameChar))
    else consToken (mark? c) (tokens? s)
termination_by s => s.length
decreasing_by all_goals simp only [List.length_cons]; omega

/-! ### Values -/

/-- The path that a dotted key stands for. -/
def path? : List Item → Option (List String)
  | [i] => i.key?.map fun key => [key]
  | i :: .dot :: rest => do return (← i.key?) :: (← path? rest)
  | _ => none

/-- The path and the value that a key is set to. -/
def setting? (items : List Item) : Option (List String × Toml) :=
  match items.dropWhile (!·.isEquals) with
  | [.equals, v] => do return (← path? (items.takeWhile (!·.isEquals)), ← v.value?)
  | _ => none

def set (entries : Entries) (setting : List String × Toml) : Option Entries :=
  match setting.1.getLast? with
  | some key => assign setting.1.dropLast key setting.2 entries
  | none => none

/-- The value that fills one field of an array. -/
def element? : List Item → Option Toml
  | [i] => i.value?
  | _ => none

/-- The array of some items; a comma may stand behind the last value. -/
def array? (items : List Item) : Option Toml := do
  let fields := Text.fields Item.isComma (items.filter (!·.isNewline))
  let fields := if fields.getLast?.any List.isEmpty then fields.dropLast else fields
  return .array (← fields.mapM element?)

def inlineTable? (items : List Item) : Option Toml := do
  if items.isEmpty then return .table .inline []
  let settings ← (Text.fields Item.isComma items).mapM setting?
  return .table .inline (← settings.foldlM set [])

/-- The item that brackets are closed into. -/
def close? (b : Bracket) (items : List Item) : Option Item :=
  match b with
  | .curly => (inlineTable? items).map .table
  | .square =>
    match array? items, path? items with
    | none, none => none
    | asArray, asPath => some (.group asArray asPath)

/-! ### Lines -/

/-- What is read so far: all tables, and the path of the one that was stated last. -/
structure Progress where
  entries : Entries
  header : List String

def line (p : Progress) : List Item → Option Progress
  | [] => some p
  | [.group _ (some header)] => (state header p.entries).map (⟨·, header⟩)
  | items => do
    let setting ← setting? items
    return { p with entries := ← within (set · setting) p.header p.entries }

/-- Writes the end of each line as a single character. -/
def plainNewlines : List Char → List Char
  | [] => []
  | '\r' :: '\n' :: s => '\n' :: plainNewlines s
  | c :: s => c :: plainNewlines s

/-- The text without the mark that may stand in front of it. -/
def withoutByteOrderMark : List Char → List Char
  | '\uFEFF' :: s => s
  | s => s

/-- The entries of the table that a text stands for. -/
def read? (s : String) : Option Entries := do
  let items ← Nesting.members close? (← tokens? (plainNewlines (withoutByteOrderMark s.toList)))
  let p ← (Text.fields Item.isNewline items).foldlM line ⟨[], []⟩
  return p.entries

end AtomicCss.Toml
