import AtomicCss.Engine

/-!
# Manifests

A manifest describes what a config exports, for programs that know nothing of engines: names,
selectors, classes and resolved values, all of them plain texts.
-/

namespace AtomicCss

/-- A class with what it stands for: a suffix of a utility, or an option of a dimension. -/
structure ManifestClass where
  key : String
  className : String
  deriving DecidableEq, Repr

/-- A dimension of a recipe with the classes of its options. -/
structure ManifestDimension where
  name : String
  options : List ManifestClass
  deriving DecidableEq, Repr

/-- The default options of a recipe, by dimension in ascending order. -/
structure DefaultOptions where
  pairs : List (String × String)
  ascending : pairs.Pairwise fun a b => a.1 < b.1
  deriving DecidableEq

namespace DefaultOptions

/-- Sets the option of a dimension in a list of ascending dimensions. -/
def place (dimension option : String) : List (String × String) → List (String × String)
  | [] => [(dimension, option)]
  | e :: es =>
    if dimension < e.1 then (dimension, option) :: e :: es
    else if dimension = e.1 then (dimension, option) :: es
    else e :: place dimension option es

/-- What is in a list after an option was set. -/
theorem mem_place {dimension option : String} {es : List (String × String)} {x : String × String}
    (h : x ∈ place dimension option es) : x = (dimension, option) ∨ x ∈ es := by
  induction es with
  | nil => simpa [place] using h
  | cons e es ih =>
    unfold place at h
    split at h
    · simpa using h
    · split at h
      · rcases List.mem_cons.1 h with h | h
        · exact .inl h
        · exact .inr (List.mem_cons_of_mem _ h)
      · rcases List.mem_cons.1 h with h | h
        · exact .inr (h ▸ List.mem_cons_self)
        · exact (ih h).imp id (List.mem_cons_of_mem _)

/-- Setting an option keeps the dimensions ascending. -/
theorem ascending_place (dimension option : String) {es : List (String × String)}
    (h : es.Pairwise fun a b => a.1 < b.1) :
    (place dimension option es).Pairwise fun a b => a.1 < b.1 := by
  induction es with
  | nil => simp [place]
  | cons e es ih =>
    obtain ⟨he, hes⟩ := List.pairwise_cons.1 h
    unfold place
    split
    · rename_i hlt
      refine List.pairwise_cons.2 ⟨fun x hx => ?_, h⟩
      rcases List.mem_cons.1 hx with rfl | hx
      · exact hlt
      · exact String.lt_trans hlt (he x hx)
    · split
      · rename_i heq
        exact List.pairwise_cons.2 ⟨fun x hx => heq ▸ he x hx, hes⟩
      · rename_i hnot hne
        refine List.pairwise_cons.2 ⟨fun x hx => ?_, ih hes⟩
        rcases mem_place hx with rfl | hx
        · refine Decidable.byContradiction fun hnot' => hne ?_
          exact String.le_antisymm (String.not_lt.1 hnot') (String.not_lt.1 hnot)
        · exact he x hx

def empty : DefaultOptions := ⟨[], .nil⟩

/-- Sets the default option of a dimension. -/
def insert (d : DefaultOptions) (dimension option : String) : DefaultOptions :=
  ⟨place dimension option d.pairs, ascending_place dimension option d.ascending⟩

/-- The defaults that result from setting each pair in turn. -/
def ofList (pairs : List (String × String)) : DefaultOptions :=
  pairs.foldl (fun d p => d.insert p.1 p.2) empty

end DefaultOptions

/-- One export. -/
inductive ManifestExport where
  | selector (name selector : String)
  /-- A variable, with its value at the root if it has one there. -/
  | variable (name target : String) (value : Option String)
  | utility (name : String) (classes : List ManifestClass)
  | recipe (name base : String) (variants : List ManifestDimension) (compounds : List String)
    (defaults : DefaultOptions)
  deriving DecidableEq

/-- The exports of a config in order. -/
structure Manifest where
  name : String
  exports : List ManifestExport
  deriving DecidableEq

namespace Manifest

def describeDimension (d : Dimension) : ManifestDimension :=
  ⟨d.name, d.options.map fun o => ⟨o.name, o.className⟩⟩

/-- The default options of a recipe by their names. -/
def describeDefaults (r : Recipe) : DefaultOptions :=
  .ofList ((r.dimensions.zip r.defaults).filterMap fun (d, choice) =>
    choice.bind fun o => (d.options[o]?).map fun option => (d.name, option.name))

/-- An export. One that names nothing in the engine has no description. -/
def describe (e : Engine) (name : String) : Export → Option ManifestExport
  | .selector id => (e.document.get? id).map fun c => .selector name c.kind.label
  | .variable target =>
    some (.variable name target.name (e.vars.resolve [Document.rootId] target).toOption)
  | .utility id =>
    some (.utility name ((e.utilityClasses id).map fun (suffix, c) => ⟨suffix, c⟩))
  | .recipe id =>
    (e.recipe? id).map fun r =>
      .recipe name r.name (r.dimensions.map describeDimension) (r.compounds.map (·.className))
        (describeDefaults r)

def ofEngine (e : Engine) : Manifest :=
  ⟨e.name, e.exports.filterMap fun (name, x) => describe e name x⟩

end Manifest

end AtomicCss
