import AtomicCss.Css.DeclarationList
import AtomicCss.Css.Identifier
import AtomicCss.Recipe.Basic
import AtomicCss.Sheet
import AtomicCss.Utility

/-!
# The engine that a config fills

An engine holds the variables, the document and the generators of one config. A generator is a
utility with the table of the suffixes used so far, or a recipe; it owns a slot of the root, into
which its classes are emitted. In eager mode that happens when a config uses a generator, in
on-demand mode when a token names one of its classes.
-/

namespace AtomicCss

/-- When the classes of generators are emitted. -/
inductive EmitMode where
  | eager
  | onDemand
  deriving DecidableEq, Repr

/-- A utility or a recipe with its slot. -/
inductive Generator where
  | utility (definition : Utility) (table : ValueTable) (slot : SlotId)
  | recipe (definition : Recipe) (slot : SlotId)

namespace Generator

/-- The name under which a generator is registered. -/
def name : Generator → String
  | utility definition _ _ => definition.name
  | recipe definition _ => definition.name

/-- The slot into which the classes are emitted. -/
def slot : Generator → SlotId
  | utility _ _ slot => slot
  | recipe _ slot => slot

/-- All classes that a generator has at present, with their declarations, by ordinal. -/
def classes : Generator → List (String × Block)
  | utility definition table _ =>
    table.entries.map fun (suffix, value) => (definition.classOf suffix, definition.style suffix value)
  | recipe definition _ => definition.classes

end Generator

/-- Emits a class at an ordinal of a slot. -/
def Document.emit (d : Document) (slot : SlotId) (ordinal : Nat) (className : String)
    (block : Block) : Except Error (Document × ContainerId) :=
  d.slotSelector slot ordinal (Css.classSelector className) block

/-- Emits classes at the ordinals from `ordinal` on. -/
def Document.emitAll (d : Document) (slot : SlotId) (ordinal : Nat) :
    List (String × Block) → Except Error (Document × List ContainerId)
  | [] => .ok (d, [])
  | (className, block) :: rest => do
    let (d, id) ← d.emit slot ordinal className block
    let (d, ids) ← d.emitAll slot (ordinal + 1) rest
    return (d, id :: ids)

/-- What a config may offer to its users under a name. -/
inductive Export where
  | selector (id : ContainerId)
  | recipe (id : GeneratorId)
  | utility (id : GeneratorId)
  | variable (target : Reference)
  deriving DecidableEq, Repr

/-- One class that a use of a utility leads to. It has a container if it was emitted. -/
structure Binding where
  suffix : String
  className : String
  container : Option ContainerId
  deriving DecidableEq, Repr

/-- The binding of a suffix, among those of one use. -/
def Binding.ofSuffix? (bindings : List Binding) (suffix : String) : Option Binding :=
  bindings.find? (·.suffix = suffix)

/-- Everything that one config states. -/
structure Engine where
  name : String
  mode : EmitMode
  vars : Variables
  document : Document
  generators : List Generator
  /-- The classes by which tokens name generators, in the order in which they came to be known. -/
  index : List (String × GeneratorId)
  exports : List (String × Export)
  /-- The warnings that do not belong to the document. -/
  notices : List Warning

namespace Engine

/-- The engine of a config that has stated nothing yet. -/
def new (name : String) (mode : EmitMode) : Engine :=
  ⟨name, mode, ∅, ∅, [], [], [], []⟩

def setMode (e : Engine) (mode : EmitMode) : Engine := { e with mode := mode }

/-! ### Variables and the document -/

/-- Declares a variable in a scope that exists. -/
def declareIn (e : Engine) (scope : ContainerId) (name : String) (value : Value) :
    Except Error (Engine × Reference) :=
  if e.document.contains scope then
    let (vars, reference) := e.vars.declare scope name value
    .ok ({ e with vars := vars }, reference)
  else .error (.unknownContainer scope)

def declare (e : Engine) (name : String) (value : Value) : Engine × Reference :=
  let (vars, reference) := e.vars.declare Document.rootId name value
  ({ e with vars := vars }, reference)

/-- Puts the result of a change of the document into the engine. -/
def withDocument (e : Engine) (result : Except Error (Document × α)) : Except Error (Engine × α) :=
  result.map fun (d, a) => ({ e with document := d }, a)

def selector (e : Engine) (parent : ContainerId) (text : String) (block : Block) :
    Except Error (Engine × ContainerId) :=
  e.withDocument (e.document.selector parent text block)

/-- A selector with declarations in CSS. Its malformed declarations are reported even if the
selector cannot be created. -/
def selectorCss (e : Engine) (parent : ContainerId) (text css : String) :
    Engine × Except Error ContainerId :=
  let (block, malformed) := Css.parseDeclarations css
  let e := { e with notices := e.notices ++ malformed.map Warning.malformedDeclaration }
  match e.selector parent text block with
  | .ok (e, id) => (e, .ok id)
  | .error cause => (e, .error cause)

def media (e : Engine) (parent : ContainerId) (query : String) :
    Except Error (Engine × ContainerId) :=
  e.withDocument (e.document.media parent query)

def keyframes (e : Engine) (name : String) : Except Error (Engine × ContainerId) :=
  e.withDocument (e.document.keyframes Document.rootId name)

def raw (e : Engine) (parent : ContainerId) (css : String) : Except Error Engine :=
  (e.document.raw parent css).map fun d => { e with document := d }

/-! ### Generators -/

def indexClass (index : List (String × GeneratorId)) (className : String) (id : GeneratorId) :
    List (String × GeneratorId) :=
  if (className, id) ∈ index then index else index ++ [(className, id)]

def generatorsFor (e : Engine) (token : String) : List GeneratorId :=
  (e.index.filter (·.1 = token)).map (·.2)

def hasGenerator (e : Engine) (name : String) : Bool := e.generators.any (·.name = name)

def addUtility (e : Engine) (u : Utility) : Except Error (Engine × GeneratorId) :=
  if u.name = "" then .error (.invalidDefinition "utility" .emptyName)
  else if e.hasGenerator u.name then .error (.invalidDefinition u.name .nameTaken)
  else do
    let (d, slot) ← e.document.reserveSlot Document.rootId
    return ({ e with document := d, generators := e.generators ++ [.utility u ∅ slot] },
      e.generators.length)

/-- Uses a utility for one entry of a table. -/
def useEntry (e : Engine) (id : GeneratorId) (u : Utility) (table : ValueTable) (slot : SlotId)
    (suffix : String) (value : Value) : Except Error (Engine × Binding) := do
  let className := u.classOf suffix
  let (document, container) ←
    match e.mode with
    | .eager =>
      (e.document.emit slot (table.ordinal suffix) className (u.style suffix value)).map
        fun (d, id) => (d, some id)
    | .onDemand => .ok (e.document, none)
  return ({ e with
      document := document
      generators := e.generators.set id (.utility u (table.insert suffix value) slot)
      index := indexClass e.index className id }, ⟨suffix, className, container⟩)

/-- Uses a utility for the given entries in turn. -/
def useEntries (e : Engine) (id : GeneratorId) :
    List (String × Value) → Except Error (Engine × List Binding)
  | [] => .ok (e, [])
  | (suffix, value) :: rest =>
    match e.generators[id]? with
    | some (.utility u table slot) => do
      let (e, binding) ← e.useEntry id u table slot suffix value
      let (e, bindings) ← e.useEntries id rest
      return (e, binding :: bindings)
    | _ => .error (.unknownGenerator id)

/-- Uses a utility for every entry of a table, or of its defaults. -/
def useUtility (e : Engine) (id : GeneratorId) (config : Option ValueTable) :
    Except Error (Engine × List Binding) :=
  match e.generators[id]? with
  | some (.utility u _ _) => e.useEntries id (config.getD u.defaults).entries
  | _ => .error (.unknownGenerator id)

def addRecipe (e : Engine) (definition : RecipeDefinition) : Except Error (Engine × GeneratorId) := do
  let (recipe, warnings) ← Recipe.compile definition
  if e.hasGenerator recipe.name then throw (.invalidDefinition recipe.name .nameTaken)
  let (reserved, slot) ← e.document.reserveSlot Document.rootId
  let document ←
    match e.mode with
    | .eager => (reserved.emitAll slot 0 recipe.classes).map (·.1)
    | .onDemand => .ok reserved
  let id := e.generators.length
  return ({ e with
      document := document
      generators := e.generators ++ [.recipe recipe slot]
      index := recipe.classes.foldl (fun index c => indexClass index c.1 id) e.index
      notices := e.notices ++ warnings }, id)

def recipe? (e : Engine) (id : GeneratorId) : Option Recipe :=
  match e.generators[id]? with
  | some (.recipe recipe _) => some recipe
  | _ => none

def utility? (e : Engine) (id : GeneratorId) : Option Utility :=
  match e.generators[id]? with
  | some (.utility u _ _) => some u
  | _ => none

/-- The suffixes that a utility was used with, each with its class. -/
def utilityClasses (e : Engine) (id : GeneratorId) : List (String × String) :=
  match e.generators[id]? with
  | some (.utility u table _) => table.entries.map fun (suffix, _) => (suffix, u.classOf suffix)
  | _ => []

/-- The classes of a component with the given options. -/
def resolveRecipe (e : Engine) (id : GeneratorId) (selection : List (String × String)) :
    Except Error (List String) :=
  match e.recipe? id with
  | some recipe => (recipe.resolve selection).mapError .variant
  | none => .error (.unknownGenerator id)

def generatorName? (e : Engine) (id : GeneratorId) : Option String :=
  (e.generators[id]?).map (·.name)

/-- Emits what a token asks of a generator: the class of a utility, or all classes of a recipe.
Nothing is emitted if the generator has no such class. -/
def generate (e : Engine) (id : GeneratorId) (token : String) :
    Except Error (Engine × List ContainerId) :=
  match e.generators[id]? with
  | none => .error (.unknownGenerator id)
  | some g =>
    match g.classes.findIdx? (·.1 = token), g with
    | none, _ => .ok (e, [])
    | some ordinal, .utility .. =>
      e.withDocument (e.document.emitAll g.slot ordinal ((g.classes.drop ordinal).take 1))
    | some _, .recipe .. => e.withDocument (e.document.emitAll g.slot 0 g.classes)

/-! ### Exports and output -/

/-- Sets an entry of the exports: in place if the name is there, at the end otherwise. -/
def putExport (name : String) (x : Export) : List (String × Export) → List (String × Export)
  | [] => [(name, x)]
  | e :: es => if e.1 = name then (name, x) :: es else e :: putExport name x es

/-- Offers something under a name, in place of what was offered under it before. -/
def addExport (e : Engine) (name : String) (x : Export) : Engine :=
  { e with exports := putExport name x e.exports }

def export? (e : Engine) (name : String) : Option Export :=
  (e.exports.find? (·.1 = name)).map (·.2)

def warnings (e : Engine) : List Warning := e.notices ++ e.document.warnings

def clearWarnings (e : Engine) : Engine :=
  { e with notices := [], document := e.document.clearWarnings }

def sheet (e : Engine) (layout : Layout) : Except Error String :=
  e.document.sheet e.vars e.name layout

end Engine

end AtomicCss
