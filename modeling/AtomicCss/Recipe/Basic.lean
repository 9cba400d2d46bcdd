import AtomicCss.Block
import AtomicCss.Error

/-!
# Recipes

A recipe styles a component that comes in variants. A variant dimension has options, of which at
most one is chosen; each option is a class. A compound is a further class that applies when all of
its options are chosen together.

`RecipeDefinition` is what a config states, `Recipe` what `Recipe.compile` makes of it: options
are then referred to by position, so that nothing can name an option that does not exist.
-/

namespace AtomicCss

/-- A dimension as a config states it. -/
structure DimensionDefinition where
  name : String
  options : List (String × Block)
  deriving DecidableEq, Repr

/-- A compound as a config states it: pairs of a dimension and an option. -/
structure CompoundDefinition where
  keys : List (String × String)
  styles : Block
  deriving DecidableEq, Repr

/-- A recipe as a config states it. -/
structure RecipeDefinition where
  name : String
  base : Block
  dimensions : List DimensionDefinition
  compounds : List CompoundDefinition
  /-- Pairs of a dimension and the option that it has unless another one is chosen. -/
  defaults : List (String × String)
  deriving DecidableEq, Repr

namespace RecipeDefinition

/-- Sets the value of a key in a list of pairs: in place if it is there, at the end otherwise. -/
def putDefault (dimension option : String) : List (String × String) → List (String × String)
  | [] => [(dimension, option)]
  | e :: es =>
    if e.1 = dimension then (dimension, option) :: es else e :: putDefault dimension option es

/-- States the default option of a dimension, in place of an earlier one. -/
def withDefault (r : RecipeDefinition) (dimension option : String) : RecipeDefinition :=
  { r with defaults := putDefault dimension option r.defaults }

end RecipeDefinition

/-- An option with its class. -/
structure RecipeOption where
  name : String
  className : String
  styles : Block
  deriving DecidableEq, Repr

/-- A dimension with its options in order. -/
structure Dimension where
  name : String
  options : List RecipeOption
  deriving DecidableEq, Repr

/-- The class of the chosen option, if one is chosen. -/
def Dimension.chosenClass (d : Dimension) (choice : Option Nat) : Option String :=
  choice.bind fun o => (d.options[o]?).map (·.className)

/-- A position of a dimension and of an option in it. -/
structure Choice where
  dimension : Nat
  option : Nat
  deriving DecidableEq, Repr

/-- Whether a choice comes before another one: by dimension, then by option. -/
def Choice.le (a b : Choice) : Bool :=
  a.dimension < b.dimension || (a.dimension == b.dimension && a.option ≤ b.option)

/-- A class that applies when all of its choices are made. -/
structure Compound where
  keys : List Choice
  className : String
  styles : Block
  deriving DecidableEq, Repr

/-- Whether all choices of a compound are made. -/
def Compound.applies (c : Compound) (chosen : List (Option Nat)) : Bool :=
  c.keys.all fun k => chosen[k.dimension]? == some (some k.option)

/-- A checked recipe. -/
structure Recipe where
  /-- The recipe's name, which is also the class of its base styles. -/
  name : String
  base : Block
  dimensions : List Dimension
  compounds : List Compound
  /-- For each dimension, the position of its default option. -/
  defaults : List (Option Nat)
  deriving DecidableEq, Repr

namespace Recipe

/-- The choice of an option by its name. -/
def locate (name : String) (dimensions : List Dimension) (dimension option : String) :
    Except VariantError Choice :=
  match dimensions.findIdx? (·.name = dimension) with
  | none => .error (.unknownDimension name dimension)
  | some d =>
    match ((dimensions[d]?).elim [] (·.options)).findIdx? (·.name = option) with
    | none => .error (.unknownOption name dimension option)
    | some o => .ok ⟨d, o⟩

/-! ### Compiling -/

/-- The part of a class's name that says which option of which dimension it is for. -/
def optionMark (dimension option : String) : String := "--" ++ dimension ++ "-" ++ option

/-- The options of a dimension, each with its class; `seen` are the options in front. -/
def compileOptions (recipe dimension : String) (seen : List RecipeOption) :
    List (String × Block) → Except DefinitionFault (List RecipeOption)
  | [] => .ok seen
  | (option, styles) :: rest =>
    if seen.any (·.name = option) then .error (.repeatedOption recipe dimension option)
    else
      compileOptions recipe dimension
        (seen ++ [⟨option, recipe ++ optionMark dimension option, styles⟩]) rest

/-- The dimensions of a recipe; `seen` are the dimensions in front. -/
def compileDimensions (recipe : String) (seen : List Dimension) :
    List DimensionDefinition → Except DefinitionFault (List Dimension)
  | [] => .ok seen
  | d :: rest =>
    if seen.any (·.name = d.name) then .error (.repeatedDimension recipe d.name)
    else do
      let options ← compileOptions recipe d.name [] d.options
      compileDimensions recipe (seen ++ [⟨d.name, options⟩]) rest

/-- The default of each dimension once the pairs are taken in turn. -/
def compileDefaults (recipe : String) (dimensions : List Dimension) (defaults : List (Option Nat)) :
    List (String × String) → Except DefinitionFault (List (Option Nat))
  | [] => .ok defaults
  | (dimension, option) :: rest =>
    match locate recipe dimensions dimension option with
    | .error cause => .error (.badDefault cause)
    | .ok c => compileDefaults recipe dimensions (defaults.set c.dimension (some c.option)) rest

/-- The keys of a compound, in the order in which they are stated. -/
def compileKeys (recipe : String) (dimensions : List Dimension) (seen : List Choice) :
    List (String × String) → Except DefinitionFault (List Choice)
  | [] => .ok seen
  | (dimension, option) :: rest =>
    match locate recipe dimensions dimension option with
    | .error cause => .error (.badCompound cause)
    | .ok c =>
      if seen.any (·.dimension = c.dimension) then .error (.repeatedKey dimension)
      else compileKeys recipe dimensions (seen ++ [c]) rest

/-- The mark of a choice in a class's name. -/
def choiceMark (dimensions : List Dimension) (c : Choice) : String :=
  match dimensions[c.dimension]? with
  | none => ""
  | some d => optionMark d.name ((d.options[c.option]?).elim "" (·.name))

def compoundClass (recipe : String) (dimensions : List Dimension) (keys : List Choice) : String :=
  recipe ++ String.join (keys.map (choiceMark dimensions))

/-- The compounds of a recipe, without those whose keys were stated before. `seen` are the
compounds in front. -/
def compileCompounds (recipe : String) (dimensions : List Dimension) (seen : List Compound) :
    List CompoundDefinition → Except DefinitionFault (List Compound × List Warning)
  | [] => .ok (seen, [])
  | c :: rest =>
    if c.keys.isEmpty then .error (.emptyCompound recipe)
    else do
      let stated ← compileKeys recipe dimensions [] c.keys
      -- compounds with the same keys are the same, in whatever order the keys are stated
      let keys := stated.mergeSort Choice.le
      let className := compoundClass recipe dimensions keys
      if seen.any (·.keys = keys) then do
        let (compounds, warnings) ← compileCompounds recipe dimensions seen rest
        return (compounds, .duplicateCompound recipe className :: warnings)
      else compileCompounds recipe dimensions (seen ++ [⟨keys, className, c.styles⟩]) rest

/-- The parts of a definition under its trimmed name. -/
def compileParts (name : String) (r : RecipeDefinition) :
    Except DefinitionFault (Recipe × List Warning) :=
  if name = "" then .error .emptyName
  else do
    let dimensions ← compileDimensions name [] r.dimensions
    let defaults ← compileDefaults name dimensions (dimensions.map fun _ => none) r.defaults
    let (compounds, warnings) ← compileCompounds name dimensions [] r.compounds
    return (⟨name, r.base, dimensions, compounds, defaults⟩, warnings)

/-- Checks a definition. Also reports the compounds that are left out. -/
def compile (r : RecipeDefinition) : Except Error (Recipe × List Warning) :=
  (compileParts (Text.trimmed r.name) r).mapError (.invalidDefinition "recipe")

/-! ### Choosing -/

/-- The chosen option of each dimension, once the pairs are taken in turn. -/
def choose (r : Recipe) (chosen : List (Option Nat)) :
    List (String × String) → Except VariantError (List (Option Nat))
  | [] => .ok chosen
  | (dimension, option) :: rest =>
    match locate r.name r.dimensions dimension option with
    | .error cause => .error cause
    | .ok c => r.choose (chosen.set c.dimension (some c.option)) rest

/-- The classes of a component with the given options, each dimension's default being replaced by
the last option that is given for it: the base, the compounds, then the options. -/
def resolve (r : Recipe) (selection : List (String × String)) : Except VariantError (List String) :=
  match r.choose r.defaults selection with
  | .error cause => .error cause
  | .ok chosen =>
    .ok (r.name ::
      (r.compounds.filter (·.applies chosen)).map (·.className) ++
      (r.dimensions.zip chosen).filterMap fun (d, choice) => d.chosenClass choice)

/-- All classes with their styles: the base, the options by dimension, the compounds. -/
def classes (r : Recipe) : List (String × Block) :=
  (r.name, r.base) ::
    (r.dimensions.flatMap fun d => d.options.map fun o => (o.className, o.styles)) ++
    r.compounds.map fun c => (c.className, c.styles)

end Recipe

end AtomicCss
