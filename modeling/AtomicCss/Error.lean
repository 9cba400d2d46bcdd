import AtomicCss.Ids
import AtomicCss.Variables.Resolve

/-!
# Errors and warnings

What can go wrong while a config is evaluated or its sheet is written. An error is a cause with
the facts that belong to it; `Error.message` words it.
-/

namespace AtomicCss

/-- Why a selection of recipe options is refused. -/
inductive VariantError where
  | unknownDimension (recipe dimension : String)
  | unknownOption (recipe dimension option : String)
  deriving DecidableEq, Repr

def VariantError.message : VariantError → String
  | unknownDimension recipe dimension =>
    "Invalid variant combination for recipe '" ++ recipe ++ "': unknown dimension '" ++ dimension
      ++ "'"
  | unknownOption recipe dimension option =>
    "Invalid variant combination for recipe '" ++ recipe ++ "': unknown option '" ++ option
      ++ "' for dimension '" ++ dimension ++ "'"

/-- Why a definition is refused. -/
inductive DefinitionFault where
  | emptyName
  | nameTaken
  | repeatedDimension (recipe dimension : String)
  | repeatedOption (recipe dimension option : String)
  | badDefault (cause : VariantError)
  | emptyCompound (recipe : String)
  | badCompound (cause : VariantError)
  | repeatedKey (dimension : String)
  /-- A fault in somebody else's words. -/
  | stated (message : String)
  deriving DecidableEq, Repr

def DefinitionFault.message : DefinitionFault → String
  | emptyName => "name must not be empty"
  | nameTaken => "a generator with this name is already registered"
  | repeatedDimension recipe dimension =>
    "'" ++ recipe ++ "' declares dimension '" ++ dimension ++ "' twice"
  | repeatedOption recipe dimension option =>
    "'" ++ recipe ++ "' declares option '" ++ option ++ "' of '" ++ dimension ++ "' twice"
  | badDefault cause => "default variant: " ++ cause.message
  | emptyCompound recipe => "'" ++ recipe ++ "' has a compound variant without keys"
  | badCompound cause => "compound variant: " ++ cause.message
  | repeatedKey dimension => "compound variant lists dimension '" ++ dimension ++ "' twice"
  | stated message => message

/-- Why a call fails. -/
inductive Error where
  /-- A reference that cannot be resolved, at a declaration: the labels of the containers from the
  root to it, and its property. -/
  | lookup (cause : LookupError) (config : String) (path : List String)
  | variant (cause : VariantError)
  | invalidDefinition (what : String) (fault : DefinitionFault)
  | unknownContainer (id : ContainerId)
  | unknownSlot (id : SlotId)
  | unknownGenerator (id : GeneratorId)
  | parse (message : String) (line column : Nat)
  deriving DecidableEq, Repr

def Error.message : Error → String
  | lookup (.unresolved name) config path =>
    "Unresolved reference '" ++ name ++ "' in config '" ++ config ++ "' at "
      ++ " > ".intercalate path
  | lookup (.cycle names) config path =>
    "Cyclic reference in config '" ++ config ++ "' at " ++ " > ".intercalate path ++ ": "
      ++ " -> ".intercalate names
  | variant cause => cause.message
  | invalidDefinition what fault => "Invalid " ++ what ++ " definition: " ++ fault.message
  | unknownContainer id => "Unknown container: ContainerId(" ++ toString id ++ "v1)"
  | unknownSlot id => "Unknown container: SlotId(" ++ toString id ++ ")"
  | unknownGenerator id => "Unknown generator #" ++ toString id
  | parse message line column =>
    "CSS parse error at line " ++ toString line ++ ", column " ++ toString column ++ ": "
      ++ message

/-- A condition that is reported and does not stop the work. -/
inductive Warning where
  /-- A property of a container was given another value. -/
  | redeclared (container property : String)
  | duplicateCompound (recipe className : String)
  | malformedDeclaration (text : String)
  deriving DecidableEq, Repr

def Warning.message : Warning → String
  | redeclared container property =>
    "'" ++ property ++ "' redeclared on '" ++ container ++ "', later value wins"
  | duplicateCompound recipe className =>
    "duplicate compound variant '" ++ className ++ "' in recipe '" ++ recipe ++ "' ignored"
  | malformedDeclaration text => "skipped malformed declaration '" ++ text ++ "'"

/-- Two calls in a row succeed if both do. -/
theorem bind_eq_ok {ε α β : Type} {x : Except ε α} {f : α → Except ε β} {b : β} :
    (x >>= f) = .ok b ↔ ∃ a, x = .ok a ∧ f a = .ok b := by
  cases x with
  | error e => simp [bind, Except.bind]
  | ok a => simp [bind, Except.bind]

theorem toOption_eq_some_iff {ε α : Type} {x : Except ε α} {a : α} :
    x.toOption = some a ↔ x = .ok a := by
  cases x with
  | error e => simp [Except.toOption]
  | ok b => simp [Except.toOption]

end AtomicCss
