import AtomicCss.Manifest.Basic
import AtomicCss.Proofs.Recipe.Choosing
import AtomicCss.Proofs.Session.Styled

/-! # Described recipes

A manifest names the classes and the default options of a recipe, and who reads it chooses options by
these names. What it says is what the recipe does (`Manifest.agrees_describe`): the recipe accepts the
options that are listed, it answers with classes that are listed, and to select the listed defaults is
to select nothing. -/

namespace AtomicCss

/-! ## Default options -/

namespace DefaultOptions

variable {dimension option : String} {pairs : List (String × String)} {x : String × String}

theorem mem_place_iff {es : List (String × String)} (h : dimension ∉ es.map (·.1)) :
    x ∈ place dimension option es ↔ x = (dimension, option) ∨ x ∈ es := by
  induction es with
  | nil => simp [place]
  | cons e es ih =>
    rw [List.map_cons, List.mem_cons, not_or] at h
    unfold place
    split
    · exact List.mem_cons
    · rw [if_neg h.1, List.mem_cons, List.mem_cons, ih h.2]
      tauto

/-- Options of different dimensions are all there. -/
theorem mem_ofList_iff (h : (pairs.map (·.1)).Nodup) : x ∈ (ofList pairs).pairs ↔ x ∈ pairs := by
  induction pairs using List.reverseRecOn generalizing x with
  | nil => exact Iff.rfl
  | append_singleton pairs p ih =>
    rw [List.map_append, List.nodup_append'] at h
    have hnew : p.1 ∉ (ofList pairs).pairs.map (·.1) := by
      intro hmem
      obtain ⟨q, hq, hname⟩ := List.mem_map.1 hmem
      refine h.2.2 (List.mem_map_of_mem ((ih h.1).1 hq)) ?_
      rw [hname]
      exact List.mem_singleton_self _
    have hplace : (ofList (pairs ++ [p])).pairs = place p.1 p.2 (ofList pairs).pairs := by
      rw [ofList, List.foldl_append]
      rfl
    rw [hplace, mem_place_iff hnew, ih h.1, List.mem_append, List.mem_singleton, or_comm]

theorem nodup_pairs (d : DefaultOptions) : (d.pairs.map (·.1)).Nodup := by
  rw [List.Nodup, List.pairwise_map]
  refine d.ascending.imp fun {a b} hlt heq => ?_
  rw [heq] at hlt
  exact String.lt_irrefl _ hlt

end DefaultOptions

/-- The classes of a recipe are its base, and those of its options and compounds. -/
theorem Recipe.mem_classes_iff {r : Recipe} {className : String} :
    className ∈ r.classes.map (·.1) ↔ className = r.name ∨
      (∃ d ∈ r.dimensions, ∃ o ∈ d.options, o.className = className) ∨
      className ∈ r.compounds.map (·.className) := by
  simp [classes]

namespace Manifest

open Recipe (Offers)

variable {r : Recipe}

/-- The default option that a dimension is described with. -/
def describedDefault? (d : Dimension) (choice : Option Nat) : Option (String × String) :=
  choice.bind fun o => (d.options[o]?).map fun option => (d.name, option.name)

theorem describedDefault?_eq_some_iff {d : Dimension} {choice : Option Nat} {x : String × String} :
    describedDefault? d choice = some x ↔ ∃ o option, choice = some o ∧ d.options[o]? = some option ∧
      x = (d.name, option.name) := by
  simp only [describedDefault?, Option.bind_eq_some_iff, Option.map_eq_some_iff, eq_comm (b := x)]
  tauto

/-- Each dimension is described at most once. -/
theorem nodup_described (hr : r.WellFormed) : (((r.dimensions.zip r.defaults).filterMap
    fun p => describedDefault? p.1 p.2).map (·.1)).Nodup := by
  have hnames : ((r.dimensions.zip r.defaults).map fun p => p.1.name).Nodup := by
    have hzip : (r.dimensions.zip r.defaults).map Prod.fst = r.dimensions :=
      List.map_fst_zip hr.defaults.length_eq.ge
    have hmap := congrArg (List.map Dimension.name) hzip
    rw [List.map_map] at hmap
    exact hmap ▸ hr.distinct.names
  rw [List.Nodup, List.pairwise_map] at hnames ⊢
  refine hnames.filterMap _ ?_
  intro p q hne x hx y hy
  obtain ⟨-, option, -, -, rfl⟩ := describedDefault?_eq_some_iff.1 hx
  obtain ⟨-, option', -, -, rfl⟩ := describedDefault?_eq_some_iff.1 hy
  exact hne

/-- The described defaults are the dimensions that have one, each with its default option. -/
theorem mem_describeDefaults_iff (hr : r.WellFormed) {x : String × String} :
    x ∈ (describeDefaults r).pairs ↔ ∃ (i o : Nat) (d : Dimension) (option : RecipeOption),
      r.dimensions[i]? = some d ∧ r.defaults[i]? = some (some o) ∧ d.options[o]? = some option ∧
      x = (d.name, option.name) := by
  have hpairs : describeDefaults r = .ofList ((r.dimensions.zip r.defaults).filterMap
    fun p => describedDefault? p.1 p.2) := rfl
  rw [hpairs, DefaultOptions.mem_ofList_iff (nodup_described hr), List.mem_filterMap]
  constructor
  · rintro ⟨⟨d, choice⟩, hmem, hx⟩
    obtain ⟨o, option, rfl, hoption, rfl⟩ := describedDefault?_eq_some_iff.1 hx
    obtain ⟨i, hi⟩ := List.mem_iff_getElem?.1 hmem
    obtain ⟨hd, hdefault⟩ := List.getElem?_zip_eq_some.1 hi
    exact ⟨i, o, d, option, hd, hdefault, hoption, rfl⟩
  · rintro ⟨i, o, d, option, hd, hdefault, hoption, rfl⟩
    refine ⟨(d, some o), List.mem_of_getElem? (i := i) ?_, ?_⟩
    · exact List.getElem?_zip_eq_some.2 ⟨hd, hdefault⟩
    · exact describedDefault?_eq_some_iff.2 ⟨o, option, rfl, hoption, rfl⟩

/-- Of a dimension, the described defaults select its default, if it has one. -/
theorem chosen?_describeDefaults (hr : r.WellFormed) {i : Nat} {d : Dimension} {default : Option Nat}
    (hd : r.dimensions[i]? = some d) (hdefault : r.defaults[i]? = some default) :
    d.chosen? default (describeDefaults r).pairs = d.chosen? default [] := by
  cases default with
  | none =>
    have hnone : selected? (describeDefaults r).pairs d.name = none := by
      rw [← Option.not_isSome_iff_eq_none, Recipe.isSome_selected?]
      rintro ⟨p, hp, hname⟩
      obtain ⟨j, o, d', option, hd', hdefault', -, rfl⟩ := (mem_describeDefaults_iff hr).1 hp
      obtain rfl := Recipe.position_eq hr.distinct.names hd' hd hname
      rw [hdefault] at hdefault'
      cases hdefault'
    rw [Dimension.chosen?, hnone]
    rfl
  | some o =>
    have hoption := hr.defaults.option i o hdefault
    rw [Choice.option?, hd, Option.bind_some] at hoption
    obtain ⟨option, hoption⟩ := Option.isSome_iff_exists.1 hoption
    have hselected : selected? (describeDefaults r).pairs d.name = some option.name := by
      rw [Recipe.selected?_eq_some_iff (describeDefaults r).nodup_pairs, mem_describeDefaults_iff hr]
      exact ⟨i, o, d, option, hd, hdefault, hoption, rfl⟩
    have hnames := hr.distinct.options d (List.mem_of_getElem? hd)
    have hposition := (Recipe.findIdx?_eq_some_iff hnames).2 ⟨option, hoption, rfl⟩
    rw [Dimension.chosen?, hselected, Dimension.chosen?]
    simp only [List.find?_eq_bind_findIdx?_getElem?, hposition]
    rfl

/-- **To select the described defaults is to select nothing.** -/
theorem resolve_describeDefaults (hr : r.WellFormed) :
    r.resolve (describeDefaults r).pairs = .ok (r.chosenClasses []) ∧
      r.resolve [] = .ok (r.chosenClasses []) := by
  have hoffers : ∀ p ∈ (describeDefaults r).pairs, Offers r.dimensions p.1 p.2 := by
    intro p hp
    obtain ⟨i, o, d, option, hd, -, hoption, rfl⟩ := (mem_describeDefaults_iff hr).1 hp
    exact ⟨d, List.mem_of_getElem? hd, rfl, option, List.mem_of_getElem? hoption, rfl⟩
  have hchosen : r.chosen (describeDefaults r).pairs = r.chosen [] := by
    apply List.ext_getElem?
    intro i
    rw [Recipe.chosen, Recipe.chosen, List.getElem?_zipWith, List.getElem?_zipWith]
    cases hd : r.dimensions[i]? with
    | none => rfl
    | some d =>
      cases hdefault : r.defaults[i]? with
      | none => rfl
      | some default => exact congrArg some (chosen?_describeDefaults hr hd hdefault)
  have hclasses : r.chosenClasses (describeDefaults r).pairs = r.chosenClasses [] := by
    rw [Recipe.chosenClasses, hchosen, Recipe.chosenClasses]
  refine ⟨?_, Recipe.resolve_of_offers hr (by simp)⟩
  rw [← hclasses]
  exact Recipe.resolve_of_offers hr hoffers

/-! ## What a description says -/

/-- What is listed of a recipe agrees with the answers to selections. -/
structure Agrees {ε : Type} (resolve : List (String × String) → Except ε (List String))
    (base : String) (variants : List ManifestDimension) (compounds : List String)
    (defaults : DefaultOptions) : Prop where
  /-- A selection is accepted if all of its options are listed. -/
  accepts : ∀ selection, (∃ classes, resolve selection = .ok classes) ↔
    ∀ p ∈ selection, ∃ d ∈ variants, d.name = p.1 ∧ ∃ o ∈ d.options, o.key = p.2
  /-- The classes of every answer are listed. -/
  lists : ∀ selection classes, resolve selection = .ok classes → ∀ c ∈ classes,
    c = base ∨ (∃ d ∈ variants, ∃ o ∈ d.options, o.className = c) ∨ c ∈ compounds
  /-- To select the defaults is to select nothing. -/
  defaults : ∃ classes, resolve defaults.pairs = .ok classes ∧ resolve [] = .ok classes

theorem agrees_describe (hr : r.WellFormed) : Agrees r.resolve r.name
    (r.dimensions.map describeDimension) (r.compounds.map (·.className)) (describeDefaults r) where
  accepts selection := by
    have hoffers (p : String × String) : Offers r.dimensions p.1 p.2 ↔
        ∃ d ∈ r.dimensions.map describeDimension, d.name = p.1 ∧ ∃ o ∈ d.options, o.key = p.2 := by
      simp [Offers, describeDimension]
    simp only [← hoffers]
    constructor
    · rintro ⟨classes, h⟩
      exact Recipe.offers_of_resolve hr h
    · intro h
      exact ⟨_, Recipe.resolve_of_offers hr h⟩
  lists selection classes h c hc := by
    have hclasses := Recipe.mem_classes_iff.1 (Recipe.resolve_subset h c hc)
    simpa [describeDimension] using hclasses
  defaults := ⟨_, resolve_describeDefaults hr⟩

/-- Answers agree that succeed alike. -/
theorem Agrees.of_eq_ok_iff {ε ε' : Type} {resolve : List (String × String) → Except ε (List String)}
    {resolve' : List (String × String) → Except ε' (List String)} {base : String}
    {variants : List ManifestDimension} {compounds : List String} {defaults : DefaultOptions}
    (h : Agrees resolve base variants compounds defaults)
    (heq : ∀ selection classes, resolve' selection = .ok classes ↔ resolve selection = .ok classes) :
    Agrees resolve' base variants compounds defaults where
  accepts selection := by
    simp only [heq]
    exact h.accepts selection
  lists selection classes hok := h.lists selection classes ((heq _ _).1 hok)
  defaults := by
    simp only [heq]
    exact h.defaults

end Manifest

end AtomicCss
