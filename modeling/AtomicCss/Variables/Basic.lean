import AtomicCss.Ids
import AtomicCss.Value

/-!
# Variables

A variable is declared in a scope, which is a container. Declaring a name again in the same scope
replaces its value in place.
-/

namespace AtomicCss

/-- A variable with the scope that declares it. -/
structure Variable where
  scope : ContainerId
  name : String
  value : Value
  deriving DecidableEq, Repr

/-- All variables, in the order of their first declaration. -/
structure Variables where
  entries : List Variable
  deriving DecidableEq, Repr

namespace Variables

def empty : Variables := ⟨[]⟩

instance : EmptyCollection Variables := ⟨empty⟩

/-- Sets the variable of a scope and a stored name: in place if it is declared, at the end
otherwise. -/
def put (v : Variable) : List Variable → List Variable
  | [] => [v]
  | w :: ws => if w.scope = v.scope ∧ w.name = v.name then v :: ws else w :: put v ws

/-- Declares a variable and returns the reference to it. -/
def declare (vs : Variables) (scope : ContainerId) (name : String) (value : Value) :
    Variables × Reference :=
  (⟨put ⟨scope, variableName name, value⟩ vs.entries⟩, .ofName name)

/-- The variable that a scope declares under a name, with or without its dashes. -/
def get? (vs : Variables) (scope : ContainerId) (name : String) : Option Variable :=
  vs.entries.find? fun v => v.scope = scope ∧ v.name = variableName name

def inScope (vs : Variables) (scope : ContainerId) : List Variable :=
  vs.entries.filter (·.scope = scope)

/-- The number of variables over all scopes. -/
def size (vs : Variables) : Nat := vs.entries.length

def isEmpty (vs : Variables) : Bool := vs.entries.isEmpty

end Variables

end AtomicCss
