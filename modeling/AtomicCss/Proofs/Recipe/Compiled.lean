import AtomicCss.Recipe.Basic
import Mathlib.Data.List.Nodup

/-! # Compiled recipes

A compiled recipe refers to options by position. Positions are found by name (`locate_spec`), which
works because names tell dimensions and options apart. Where several pairs name options of one
dimension, the last pair counts (`Dimension.index?`). -/

namespace AtomicCss

/-- The option that a selection gives to a dimension: that of the last pair for it. -/
def selected? (selection : List (String × String)) (dimension : String) : Option String :=
  ((selection.filter (·.1 = dimension)).getLast?).map (·.2)

/-- The position of the option that a selection gives to a dimension, or else the default. -/
def Dimension.index? (d : Dimension) (default : Option Nat) (selection : List (String × String)) :
    Option Nat :=
  match selected? selection d.name with
  | some option => d.options.findIdx? (·.name = option)
  | none => default

/-- The option that a choice stands for. -/
def Choice.option? (c : Choice) (dimensions : List Dimension) : Option RecipeOption :=
  (dimensions[c.dimension]?).bind fun d => d.options[c.option]?

namespace Recipe

/-- Names tell dimensions apart, and the options of each dimension. -/
structure Distinct (dimensions : List Dimension) : Prop where
  names : (dimensions.map (·.name)).Nodup
  options : ∀ d, d ∈ dimensions → (d.options.map (·.name)).Nodup

/-- There is a default or none for each dimension, and each one stands for an option. -/
structure Defaults (dimensions : List Dimension) (defaults : List (Option Nat)) : Prop where
  length_eq : defaults.length = dimensions.length
  option : ∀ i o, defaults[i]? = some (some o) → (Choice.option? ⟨i, o⟩ dimensions).isSome

/-- A recipe whose choices by position all stand for options. -/
structure WellFormed (r : Recipe) : Prop where
  distinct : Distinct r.dimensions
  defaults : Defaults r.dimensions r.defaults
  keys : ∀ c ∈ r.compounds, ∀ k ∈ c.keys, (k.option? r.dimensions).isSome

variable {recipe dimension option : String} {dimensions : List Dimension} {c : Choice}
  {e e' : VariantError} {selection rest : List (String × String)} {p : String × String}
  {d : Dimension}

/-! ## Locating an option -/

/-- In a list of things with distinct names, a search by name finds the one of that name. -/
theorem findIdx?_eq_some_iff {α : Type} {name : α → String} {l : List α} {a : String} {i : Nat}
    (h : (l.map name).Nodup) :
    l.findIdx? (name · = a) = some i ↔ ∃ x, l[i]? = some x ∧ name x = a := by
  rw [List.findIdx?_eq_some_iff_getElem]
  constructor
  · rintro ⟨hi, hname, -⟩
    exact ⟨l[i], List.getElem?_eq_getElem hi, by simpa using hname⟩
  · rintro ⟨x, hx, hname⟩
    obtain ⟨hi, rfl⟩ := List.getElem?_eq_some_iff.1 hx
    refine ⟨hi, by simpa using hname, fun j hj hsame => ?_⟩
    have hji : j < l.length := Nat.lt_trans hj hi
    have hsame : name l[j] = name l[i] := by simpa [hname] using hsame
    refine List.nodup_iff_getElem?_ne_getElem?.1 h j i hj (by simpa using hi) ?_
    rw [List.getElem?_map, List.getElem?_map, List.getElem?_eq_getElem hji,
      List.getElem?_eq_getElem hi, Option.map_some, Option.map_some, hsame]

/-- Things with distinct names are told apart by them. -/
theorem position_eq {α : Type} {name : α → String} {l : List α} {x y : α} {i j : Nat}
    (h : (l.map name).Nodup) (hx : l[i]? = some x) (hy : l[j]? = some y) (hname : name x = name y) :
    i = j := by
  have hi : l.findIdx? (name · = name y) = some i := (findIdx?_eq_some_iff h).2 ⟨x, hx, hname⟩
  have hj : l.findIdx? (name · = name y) = some j := (findIdx?_eq_some_iff h).2 ⟨y, hy, rfl⟩
  exact Option.some.inj (hi.symm.trans hj)

theorem findIdx?_eq_none_iff {α : Type} {name : α → String} {l : List α} {a : String} :
    l.findIdx? (name · = a) = none ↔ ∀ x ∈ l, name x ≠ a := by
  simp [List.findIdx?_eq_none_iff]

/-- A pair that names an option of a dimension. -/
def Offers (dimensions : List Dimension) (dimension option : String) : Prop :=
  ∃ d ∈ dimensions, d.name = dimension ∧ ∃ o ∈ d.options, o.name = option

instance : Decidable (Offers dimensions dimension option) :=
  inferInstanceAs
    (Decidable (∃ d ∈ dimensions, d.name = dimension ∧ ∃ o ∈ d.options, o.name = option))

/-- Why a pair is refused: no dimension has this name, or no option of the dimension has. -/
inductive Refused (recipe : String) (dimensions : List Dimension) :
    String → String → VariantError → Prop
  | dimension {dimension option : String} (unknown : ∀ d ∈ dimensions, d.name ≠ dimension) :
      Refused recipe dimensions dimension option (.unknownDimension recipe dimension)
  | option {dimension option : String} {d : Dimension} (mem : d ∈ dimensions)
      (named : d.name = dimension) (unknown : ∀ o ∈ d.options, o.name ≠ option) :
      Refused recipe dimensions dimension option (.unknownOption recipe dimension option)

/-- The choice is of the option that a pair names. -/
def Names (dimensions : List Dimension) (dimension option : String) (c : Choice) : Prop :=
  ∃ d o, dimensions[c.dimension]? = some d ∧ d.name = dimension ∧
    d.options[c.option]? = some o ∧ o.name = option

theorem Names.offers (h : Names dimensions dimension option c) :
    Offers dimensions dimension option := by
  obtain ⟨d, o, hd, hdname, ho, honame⟩ := h
  exact ⟨d, List.mem_of_getElem? hd, hdname, o, List.mem_of_getElem? ho, honame⟩

theorem Names.isSome_option? (h : Names dimensions dimension option c) :
    (c.option? dimensions).isSome := by
  obtain ⟨d, o, hd, -, ho, -⟩ := h
  simp [Choice.option?, hd, ho]

theorem Refused.not_offers (h : Refused recipe dimensions dimension option e)
    (hdistinct : Distinct dimensions) : ¬ Offers dimensions dimension option := by
  rintro ⟨d, hd, hname, o, ho, honame⟩
  cases h with
  | dimension unknown => exact unknown d hd hname
  | option mem named unknown =>
    obtain rfl := List.inj_on_of_nodup_map hdistinct.names hd mem (hname.trans named.symm)
    exact unknown o ho honame

theorem Refused.unique (h : Refused recipe dimensions dimension option e)
    (h' : Refused recipe dimensions dimension option e') : e = e' := by
  cases h with
  | dimension unknown =>
    cases h' with
    | dimension _ => rfl
    | option mem named _ => exact absurd named (unknown _ mem)
  | option mem named _ =>
    cases h' with
    | dimension unknown => exact absurd named (unknown _ mem)
    | option _ _ _ => rfl

/-- Locating finds the option that a pair names, and otherwise says why there is none. -/
theorem locate_spec (h : Distinct dimensions) (recipe dimension option : String) :
    (∃ c, locate recipe dimensions dimension option = .ok c ∧ Names dimensions dimension option c) ∨
    ∃ e, locate recipe dimensions dimension option = .error e ∧
      Refused recipe dimensions dimension option e := by
  rw [locate]
  cases hi : dimensions.findIdx? (·.name = dimension) with
  | none => exact .inr ⟨_, rfl, .dimension (findIdx?_eq_none_iff.1 hi)⟩
  | some i =>
    obtain ⟨d, hd, rfl⟩ := (findIdx?_eq_some_iff h.names).1 hi
    have hmem := List.mem_of_getElem? hd
    simp only [hd, Option.elim_some]
    cases hj : d.options.findIdx? (·.name = option) with
    | none => exact .inr ⟨_, rfl, .option hmem rfl (findIdx?_eq_none_iff.1 hj)⟩
    | some j =>
      obtain ⟨o, ho, honame⟩ := (findIdx?_eq_some_iff (h.options d hmem)).1 hj
      exact .inl ⟨_, rfl, d, o, hd, rfl, ho, honame⟩

theorem names_of_locate (h : Distinct dimensions)
    (hc : locate recipe dimensions dimension option = .ok c) :
    Names dimensions dimension option c := by
  rcases locate_spec h recipe dimension option with ⟨c', hc', hnames⟩ | ⟨e, he, -⟩
  · obtain rfl := Except.ok.inj (hc.symm.trans hc')
    exact hnames
  · rw [hc] at he
    cases he

/-! ## The last pair for a dimension -/

theorem selected?_cons : selected? (p :: rest) dimension =
    (selected? rest dimension).or (if p.1 = dimension then some p.2 else none) := by
  rw [selected?, selected?, List.filter_cons]
  split
  · next hp =>
    rw [if_pos (by simpa using hp), List.getLast?_cons]
    cases (rest.filter (·.1 = dimension)).getLast? <;> rfl
  · next hp => rw [if_neg (by simpa using hp), Option.or_none]

theorem isSome_selected? :
    (selected? selection dimension).isSome ↔ ∃ p ∈ selection, p.1 = dimension := by
  induction selection with
  | nil => simp [selected?]
  | cons p rest ih =>
    rw [selected?_cons, Option.isSome_or, Bool.or_eq_true, ih]
    simp [or_comm]

theorem mem_of_selected? (h : selected? selection dimension = some option) :
    (dimension, option) ∈ selection := by
  obtain ⟨p, hp, rfl⟩ := Option.map_eq_some_iff.1 h
  have hfilter := List.mem_filter.1 (List.mem_of_getLast? hp)
  have hname : p.1 = dimension := by simpa using hfilter.2
  exact hname ▸ hfilter.1

/-- Without two pairs for one dimension, the last one is the only one. -/
theorem selected?_eq_some_iff (h : (selection.map (·.1)).Nodup) :
    selected? selection dimension = some option ↔ (dimension, option) ∈ selection := by
  refine ⟨mem_of_selected?, fun hmem => ?_⟩
  obtain ⟨option', hoption'⟩ := Option.isSome_iff_exists.1 (isSome_selected?.2 ⟨_, hmem, rfl⟩)
  have hsame := List.inj_on_of_nodup_map h (mem_of_selected? hoption') hmem rfl
  rw [hoption', (Prod.mk.inj hsame).2]

theorem selected?_perm {selection' : List (String × String)} (h : selection'.Perm selection)
    (hnodup : (selection.map (·.1)).Nodup) (dimension : String) :
    selected? selection' dimension = selected? selection dimension := by
  have hnodup' : (selection'.map (·.1)).Nodup := (h.map _).nodup_iff.2 hnodup
  ext option
  rw [selected?_eq_some_iff hnodup, selected?_eq_some_iff hnodup', h.mem_iff]

/-! ## Positions -/

/-- A pair for another dimension has no effect here. -/
theorem index?_cons_of_ne (hname : p.1 ≠ d.name) (default : Option Nat) :
    d.index? default (p :: rest) = d.index? default rest := by
  rw [Dimension.index?, selected?_cons, if_neg hname, Option.or_none, Dimension.index?]

/-- A pair for this dimension counts, unless a later pair does. -/
theorem index?_cons_of_eq {o : RecipeOption} {i : Nat} (hnames : (d.options.map (·.name)).Nodup)
    (ho : d.options[i]? = some o) (default : Option Nat) :
    d.index? default ((d.name, o.name) :: rest) = d.index? (some i) rest := by
  rw [Dimension.index?, selected?_cons, if_pos rfl, Dimension.index?]
  cases selected? rest d.name with
  | none => exact (findIdx?_eq_some_iff hnames).2 ⟨o, ho, rfl⟩
  | some option => rfl

/-- Taking one more pair in front is to have its option as the default. -/
theorem zipWith_index?_cons (hdistinct : Distinct dimensions) (hnames : Names dimensions p.1 p.2 c)
    (defaults : List (Option Nat)) :
    List.zipWith (·.index? · (p :: rest)) dimensions defaults =
      List.zipWith (·.index? · rest) dimensions (defaults.set c.dimension (some c.option)) := by
  obtain ⟨d, o, hd, hdname, ho, honame⟩ := hnames
  obtain ⟨dimension, option⟩ := p
  subst hdname honame
  apply List.ext_getElem?
  intro i
  rw [List.getElem?_zipWith, List.getElem?_zipWith, List.getElem?_set]
  by_cases hi : c.dimension = i
  · subst hi
    rw [hd, if_pos rfl]
    by_cases hlt : c.dimension < defaults.length
    · rw [if_pos hlt, List.getElem?_eq_getElem hlt]
      simp only
      rw [index?_cons_of_eq (hdistinct.options d (List.mem_of_getElem? hd)) ho]
    · rw [if_neg hlt, List.getElem?_eq_none (Nat.not_lt.1 hlt)]
  · rw [if_neg hi]
    cases hd' : dimensions[i]? with
    | none => rfl
    | some d' =>
      cases defaults[i]? with
      | none => rfl
      | some default =>
        have hname : d.name ≠ d'.name := fun hsame => hi (position_eq hdistinct.names hd hd' hsame)
        simp only
        rw [index?_cons_of_ne hname]

/-- Without pairs there are the defaults. -/
theorem zipWith_index?_nil {defaults : List (Option Nat)}
    (h : defaults.length = dimensions.length) :
    List.zipWith (·.index? · []) dimensions defaults = defaults := by
  apply List.ext_getElem?
  intro i
  rw [List.getElem?_zipWith]
  by_cases hi : i < defaults.length
  · rw [List.getElem?_eq_getElem hi, List.getElem?_eq_getElem (h ▸ hi)]
    rfl
  · rw [List.getElem?_eq_none (Nat.not_lt.1 hi)]
    cases dimensions[i]? <;> rfl

/-- What a selection gives stands for options, as the defaults do. -/
theorem Defaults.zipWith_index? {defaults : List (Option Nat)} (h : Defaults dimensions defaults)
    (selection : List (String × String)) :
    Defaults dimensions (List.zipWith (·.index? · selection) dimensions defaults) where
  length_eq := by rw [List.length_zipWith, h.length_eq, Nat.min_self]
  option := by
    intro i o hi
    obtain ⟨d, default, hd, hdefault, hindex⟩ := List.getElem?_zipWith_eq_some.1 hi
    rw [Dimension.index?] at hindex
    split at hindex
    · next option _ =>
      obtain ⟨hlt, -⟩ := List.findIdx?_eq_some_iff_getElem.1 hindex
      simp [Choice.option?, hd, hlt]
    · subst hindex
      exact h.option i o hdefault

theorem defaults_none (dimensions : List Dimension) :
    Defaults dimensions (dimensions.map fun _ => none) where
  length_eq := List.length_map _
  option := by
    intro i o hi
    rw [List.getElem?_map] at hi
    obtain ⟨d, -, hnone⟩ := Option.map_eq_some_iff.1 hi
    cases hnone

/-- Choosing goes through when each pair names an option, and then the last pair for a dimension
counts. -/
theorem choose_eq_ok_iff {r : Recipe} (hdistinct : Distinct r.dimensions)
    {chosen chosen' : List (Option Nat)} (hlength : chosen.length = r.dimensions.length) :
    r.choose chosen selection = .ok chosen' ↔
      (∀ p ∈ selection, Offers r.dimensions p.1 p.2) ∧
      chosen' = List.zipWith (·.index? · selection) r.dimensions chosen := by
  induction selection generalizing chosen with
  | nil => simp [choose, zipWith_index?_nil hlength, eq_comm]
  | cons p rest ih =>
    obtain ⟨dimension, option⟩ := p
    rw [choose]
    rcases locate_spec hdistinct r.name dimension option with ⟨c, hc, hnames⟩ | ⟨e, he, hrefused⟩
    · rw [hc]
      simp only
      rw [ih (by simpa using hlength), zipWith_index?_cons hdistinct hnames]
      simp [hnames.offers]
    · rw [he]
      simp [hrefused.not_offers hdistinct]

theorem Defaults.choose {r : Recipe} {defaults chosen : List (Option Nat)}
    (h : Defaults r.dimensions defaults) (hdistinct : Distinct r.dimensions)
    (hchosen : r.choose defaults selection = .ok chosen) : Defaults r.dimensions chosen := by
  obtain ⟨-, rfl⟩ := (choose_eq_ok_iff hdistinct h.length_eq).1 hchosen
  exact h.zipWith_index? selection

end Recipe

end AtomicCss
