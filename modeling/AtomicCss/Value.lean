/-!
# Values

The right-hand side of a declaration is a literal text, a reference to a variable, or a sequence
of fragments of both sorts. References stay unresolved until the sheet is written.
-/

namespace AtomicCss

/-- A variable's name as it is stored: one leading pair of dashes is not part of it. -/
def variableName (name : String) : String :=
  match name.toList with
  | '-' :: '-' :: rest => String.ofList rest
  | _ => name

/-- A reference to a variable, looked up when the sheet is written. -/
structure Reference where
  name : String
  deriving DecidableEq, Repr

namespace Reference

/-- The reference to the variable that a config writes as `name`. -/
def ofName (name : String) : Reference := ⟨variableName name⟩

/-- How a reference is shown to people. -/
def display (r : Reference) : String := "ref(" ++ r.name ++ ")"

end Reference

/-- One piece of a composite value. -/
inductive Fragment where
  | text (text : String)
  | ref (target : Reference)
  deriving DecidableEq, Repr

/-- What a property or a variable is set to. -/
inductive Value where
  | literal (text : String)
  | ref (target : Reference)
  | composite (fragments : List Fragment)
  deriving DecidableEq, Repr

namespace Value

def literal? : Value → Option String
  | literal text => some text
  | _ => none

/-- A value as the sequence of its fragments. -/
def fragments : Value → List Fragment
  | literal text => [.text text]
  | ref target => [.ref target]
  | composite fragments => fragments

/-- The names that a value mentions, in order. -/
def mentions (v : Value) : List String :=
  v.fragments.filterMap fun
    | .text _ => none
    | .ref target => some target.name

end Value

end AtomicCss
