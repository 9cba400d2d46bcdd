import AtomicCss.Variables.Basic

/-!
# Resolving references

A value is resolved in a chain of scopes, outermost first. A reference means the innermost visible
declaration of its name. The declaration's own value sees less: only declarations of its scope and
of the enclosing ones, and not itself. So a variable that shadows an outer one may build on it,
and every step leaves fewer declarations to look at, which is why resolution ends.
-/

namespace AtomicCss

/-- Why a reference has no text. -/
inductive LookupError where
  /-- No visible scope declares the name. -/
  | unresolved (name : String)
  /-- Every visible declaration of the last name waits for the reference itself. -/
  | cycle (names : List String)
  deriving DecidableEq, Repr

def LookupError.message : LookupError → String
  | unresolved name => "unresolved reference '" ++ name ++ "'"
  | cycle names => "cyclic reference: " ++ " -> ".intercalate names

/-- A declaration seen from a value: the position of its scope in the chain, its name and value. -/
structure Visible where
  position : Nat
  name : String
  value : Value
  deriving DecidableEq, Repr

/-- What is visible from a chain of scopes, innermost scope first. -/
def Variables.visible (vs : Variables) (chain : List ContainerId) : List Visible :=
  chain.zipIdx.reverse.flatMap fun (scope, position) =>
    (vs.inScope scope).map fun v => ⟨position, v.name, v.value⟩

/-- What the value of `d` sees of `env`: neither `d` itself nor the scopes inside of its own. -/
def Visible.outside (d : Visible) (env : List Visible) : List Visible :=
  env.filter fun w => w.position ≤ d.position ∧ ¬(w.position = d.position ∧ w.name = d.name)

theorem Visible.length_outside_lt {d : Visible} {env : List Visible} (h : d ∈ env) :
    (d.outside env).length < env.length :=
  List.length_filter_lt_length_iff_exists.2 ⟨d, h, by simp⟩

mutual

/-- The text of a reference; `path` holds the names on the way to it. -/
def resolveName (env : List Visible) (path : List String) (name : String) :
    Except LookupError String :=
  match h : env.find? (·.name = name) with
  | some d =>
    have := Visible.length_outside_lt (List.mem_of_find?_eq_some h)
    resolveFragments (d.outside env) (path ++ [name]) d.value.fragments
  | none => .error (if name ∈ path then .cycle (path ++ [name]) else .unresolved name)
termination_by (env.length, 0)

/-- The texts of some fragments, one after the other. -/
def resolveFragments (env : List Visible) (path : List String) :
    List Fragment → Except LookupError String
  | [] => .ok ""
  | .text text :: fs => do
    let rest ← resolveFragments env path fs
    return text ++ rest
  | .ref target :: fs => do
    let text ← resolveName env path target.name
    let rest ← resolveFragments env path fs
    return text ++ rest
termination_by fs => (env.length, fs.length + 1)

end

namespace Variables

/-- The text of a value in a chain of scopes, outermost first. -/
def resolveValue (vs : Variables) (chain : List ContainerId) (v : Value) :
    Except LookupError String :=
  resolveFragments (vs.visible chain) [] v.fragments

/-- The text of a reference in a chain of scopes, outermost first. -/
def resolve (vs : Variables) (chain : List ContainerId) (r : Reference) :
    Except LookupError String :=
  resolveName (vs.visible chain) [] r.name

end Variables

end AtomicCss
