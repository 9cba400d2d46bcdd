import AtomicCss.Proofs.Recipe.Compiled
import Mathlib.Data.List.Sort

/-! # The table of a recipe

`Recipe.compile` checks a definition name by name and turns names into positions on the way. Both
sides of this can be said without its loops: which definitions are valid
(`RecipeDefinition.Valid`), and what the table of a valid one is (`RecipeDefinition.table`). The
result of compiling is exactly that (`compile_eq_ok_iff`), so each fact about compiled recipes is a
fact about the table (`wellFormed_of_compile`). -/

namespace AtomicCss

open Recipe

/-! ## Valid definitions -/

namespace RecipeDefinition

/-- A pair that names an option of a dimension. -/
def Declares (r : RecipeDefinition) (p : String × String) : Prop :=
  ∃ d ∈ r.dimensions, d.name = p.1 ∧ p.2 ∈ d.options.map (·.1)

/-- Keys that a compound may have. -/
structure Admits (r : RecipeDefinition) (keys : List (String × String)) : Prop where
  ne_nil : keys ≠ []
  declared : ∀ p ∈ keys, r.Declares p
  distinct : (keys.map (·.1)).Nodup

structure Valid (r : RecipeDefinition) : Prop where
  name : Text.trimmed r.name ≠ ""
  dimensions : (r.dimensions.map (·.name)).Nodup
  options : ∀ d ∈ r.dimensions, (d.options.map (·.1)).Nodup
  defaults : ∀ p ∈ r.defaults, r.Declares p
  compounds : ∀ c ∈ r.compounds, r.Admits c.keys

variable {r : RecipeDefinition}

instance (p : String × String) : Decidable (r.Declares p) :=
  inferInstanceAs (Decidable (∃ d ∈ r.dimensions, d.name = p.1 ∧ p.2 ∈ d.options.map (·.1)))

instance (keys : List (String × String)) : Decidable (r.Admits keys) :=
  decidable_of_iff (keys ≠ [] ∧ (∀ p ∈ keys, r.Declares p) ∧ (keys.map (·.1)).Nodup)
    ⟨fun ⟨h, h', h''⟩ => ⟨h, h', h''⟩, fun ⟨h, h', h''⟩ => ⟨h, h', h''⟩⟩

instance : Decidable r.Valid :=
  decidable_of_iff (Text.trimmed r.name ≠ "" ∧ (r.dimensions.map (·.name)).Nodup ∧
      (∀ d ∈ r.dimensions, (d.options.map (·.1)).Nodup) ∧ (∀ p ∈ r.defaults, r.Declares p) ∧
      ∀ c ∈ r.compounds, r.Admits c.keys)
    ⟨fun ⟨h, h', h'', h₃, h₄⟩ => ⟨h, h', h'', h₃, h₄⟩,
      fun ⟨h, h', h'', h₃, h₄⟩ => ⟨h, h', h'', h₃, h₄⟩⟩

end RecipeDefinition

/-! ## The table -/

/-- A dimension with its options in order, each with its class. -/
def DimensionDefinition.compiled (recipe : String) (d : DimensionDefinition) : Dimension :=
  ⟨d.name, d.options.map fun p => ⟨p.1, recipe ++ optionMark d.name p.1, p.2⟩⟩

/-- The choices that some pairs name, by dimension. -/
def Recipe.choices (dimensions : List Dimension) (pairs : List (String × String)) : List Choice :=
  dimensions.zipIdx.filterMap fun (d, i) => (d.index? none pairs).map (⟨i, ·⟩)

/-- A compound with its keys by position. -/
def CompoundDefinition.compiled (recipe : String) (dimensions : List Dimension)
    (c : CompoundDefinition) : Compound :=
  ⟨choices dimensions c.keys, compoundClass recipe dimensions (choices dimensions c.keys), c.styles⟩

namespace CompoundDefinition

/-- Whether a compound, given with its position, has the same keys as one in front of it. -/
def Restates (cs : List CompoundDefinition) (c : CompoundDefinition × Nat) : Prop :=
  ∃ c' ∈ cs.take c.2, c'.keys.Perm c.1.keys

instance (cs : List CompoundDefinition) : DecidablePred (Restates cs) := fun c =>
  inferInstanceAs (Decidable (∃ c' ∈ cs.take c.2, c'.keys.Perm c.1.keys))

end CompoundDefinition

namespace RecipeDefinition

/-- The compounds that are the first with their keys, in order. -/
def firstCompounds (r : RecipeDefinition) : List CompoundDefinition :=
  (r.compounds.zipIdx.filter (¬ CompoundDefinition.Restates r.compounds ·)).map (·.1)

/-- The other compounds, in order. -/
def repeatedCompounds (r : RecipeDefinition) : List CompoundDefinition :=
  (r.compounds.zipIdx.filter (CompoundDefinition.Restates r.compounds ·)).map (·.1)

/-- What a valid definition is compiled to. -/
def table (r : RecipeDefinition) : Recipe :=
  let name := Text.trimmed r.name
  let dimensions := r.dimensions.map (·.compiled name)
  { name, base := r.base, dimensions
    compounds := r.firstCompounds.map (·.compiled name dimensions)
    defaults := dimensions.map (·.index? none r.defaults) }

/-- What is reported of a valid definition: each compound that is left out. -/
def notices (r : RecipeDefinition) : List Warning :=
  r.repeatedCompounds.map fun c =>
    .duplicateCompound r.table.name (c.compiled r.table.name r.table.dimensions).className

end RecipeDefinition

namespace Recipe

variable {recipe dimension option : String} {dimensions : List Dimension} {c c' : Choice}
  {r : RecipeDefinition} {p p' : String × String} {keys keys' : List (String × String)}

/-! ## Names and options -/

/-- Adding a name that is not there keeps names distinct. -/
theorem nodup_append_new {α β : Type} {name : α → β} {seen : List α} {x : α}
    (hseen : (seen.map name).Nodup) (hx : name x ∉ seen.map name) :
    ((seen ++ [x]).map name).Nodup := by
  rw [List.map_append, List.nodup_append']
  exact ⟨hseen, by simp, by simpa using hx⟩

/-- With one name more, names are distinct if the new one is not there yet. -/
theorem nodup_append_cons_iff {α : Type} {a : α} {l l' : List α} :
    (l ++ a :: l').Nodup ↔ a ∉ l ∧ ((l ++ [a]) ++ l').Nodup := by
  rw [List.append_assoc, List.singleton_append]
  refine ⟨fun h => ⟨fun ha => ?_, h⟩, And.right⟩
  exact List.disjoint_of_nodup_append h ha List.mem_cons_self

theorem compileOptions_eq_ok_iff {seen options : List RecipeOption} {rest : List (String × Block)}
    (hseen : (seen.map (·.name)).Nodup) :
    compileOptions recipe dimension seen rest = .ok options ↔
      (seen.map (·.name) ++ rest.map (·.1)).Nodup ∧
      options = seen ++ rest.map fun p => ⟨p.1, recipe ++ optionMark dimension p.1, p.2⟩ := by
  induction rest generalizing seen with
  | nil => simp [compileOptions, hseen, eq_comm]
  | cons p rest ih =>
    obtain ⟨option, styles⟩ := p
    rw [compileOptions, List.map_cons, List.map_cons, nodup_append_cons_iff]
    by_cases hold : option ∈ seen.map (·.name)
    · rw [if_pos (by simpa using hold)]
      simp [hold]
    · rw [if_neg (by simpa using hold), ih (nodup_append_new hseen hold)]
      simp [hold]

theorem compileDimensions_eq_ok_iff {seen : List Dimension} {rest : List DimensionDefinition}
    (hseen : (seen.map (·.name)).Nodup) :
    compileDimensions recipe seen rest = .ok dimensions ↔
      ((seen.map (·.name) ++ rest.map (·.name)).Nodup ∧
        ∀ d ∈ rest, (d.options.map (·.1)).Nodup) ∧
      dimensions = seen ++ rest.map (·.compiled recipe) := by
  induction rest generalizing seen with
  | nil => simp [compileDimensions, hseen, eq_comm]
  | cons d rest ih =>
    have hoptions (options : List RecipeOption) :
        compileOptions recipe d.name [] d.options = .ok options ↔ _ := compileOptions_eq_ok_iff .nil
    rw [compileDimensions, List.map_cons, List.map_cons, nodup_append_cons_iff]
    by_cases hold : d.name ∈ seen.map (·.name)
    · rw [if_pos (by simpa using hold)]
      simp [hold]
    · rw [if_neg (by simpa using hold), bind_eq_ok]
      simp only [hoptions, List.map_nil, List.nil_append, and_assoc, exists_and_left, exists_eq_left]
      rw [ih (nodup_append_new hseen hold)]
      simp [hold, DimensionDefinition.compiled, and_assoc, and_left_comm]

/-! ## Defaults -/

theorem mapError_eq_ok_iff {ε ε' α : Type} {f : ε → ε'} {x : Except ε α} {a : α} :
    x.mapError f = .ok a ↔ x = .ok a := by
  cases x <;> simp [Except.mapError]

/-- The defaults are chosen like a selection. -/
theorem compileDefaults_eq_choose (recipe : Recipe) (seen : List (Option Nat)) :
    compileDefaults recipe.name recipe.dimensions seen keys =
      (recipe.choose seen keys).mapError .badDefault := by
  induction keys generalizing seen with
  | nil => rfl
  | cons p rest ih =>
    rw [compileDefaults, choose]
    cases locate recipe.name recipe.dimensions p.1 p.2 with
    | error cause => rfl
    | ok c => exact ih _

/-! ## Keys -/

theorem Names.unique (hdistinct : Distinct dimensions) (h : Names dimensions dimension option c)
    (h' : Names dimensions dimension option c') : c = c' := by
  obtain ⟨d, o, hd, hdname, ho, honame⟩ := h
  obtain ⟨d', o', hd', hdname', ho', honame'⟩ := h'
  obtain ⟨i, j⟩ := c
  obtain ⟨i', j'⟩ := c'
  obtain rfl : i = i' := position_eq hdistinct.names hd hd' (hdname.trans hdname'.symm)
  obtain rfl : d = d' := Option.some.inj (hd.symm.trans hd')
  obtain rfl : j = j' := position_eq (hdistinct.options d (List.mem_of_getElem? hd)) ho ho'
    (honame.trans honame'.symm)
  rfl

theorem Names.pair_eq (h : Names dimensions p.1 p.2 c) (h' : Names dimensions p'.1 p'.2 c) :
    p = p' := by
  obtain ⟨d, o, hd, hdname, ho, honame⟩ := h
  obtain ⟨d', o', hd', hdname', ho', honame'⟩ := h'
  obtain rfl : d = d' := Option.some.inj (hd.symm.trans hd')
  obtain rfl : o = o' := Option.some.inj (ho.symm.trans ho')
  exact Prod.ext (hdname.symm.trans hdname') (honame.symm.trans honame')

theorem exists_names (hdistinct : Distinct dimensions) (h : Offers dimensions dimension option) :
    ∃ c, Names dimensions dimension option c := by
  rcases locate_spec hdistinct "" dimension option with ⟨c, -, hnames⟩ | ⟨e, -, hrefused⟩
  · exact ⟨c, hnames⟩
  · exact absurd h (hrefused.not_offers hdistinct)

/-- Each pair names the choice that stands at its place. -/
abbrev NamesAll (dimensions : List Dimension) : List (String × String) → List Choice → Prop :=
  List.Forall₂ fun p c => Names dimensions p.1 p.2 c

variable {cs : List Choice}

theorem NamesAll.mem_iff (h : NamesAll dimensions keys cs) (hdistinct : Distinct dimensions) :
    c ∈ cs ↔ ∃ p ∈ keys, Names dimensions p.1 p.2 c := by
  induction h with
  | nil => simp
  | cons hnames _ ih =>
    rw [List.mem_cons, ih]
    constructor
    · rintro (rfl | ⟨p, hp, hpc⟩)
      · exact ⟨_, List.mem_cons_self, hnames⟩
      · exact ⟨p, List.mem_cons_of_mem _ hp, hpc⟩
    · rintro ⟨p, hp, hpc⟩
      rcases List.mem_cons.1 hp with rfl | hp
      · exact .inl (hpc.unique hdistinct hnames)
      · exact .inr ⟨p, hp, hpc⟩

/-- Dimensions repeat by position where they repeat by name. -/
theorem NamesAll.nodup_iff (h : NamesAll dimensions keys cs) (hdistinct : Distinct dimensions) :
    (keys.map (·.1)).Nodup ↔ (cs.map (·.dimension)).Nodup := by
  have hunique : Relator.BiUnique fun (name : String) (i : Nat) =>
      ∃ d, dimensions[i]? = some d ∧ d.name = name := by
    constructor
    · rintro name i name' ⟨d, hd, rfl⟩ ⟨d', hd', rfl⟩
      rw [Option.some.inj (hd.symm.trans hd')]
    · rintro name i i' ⟨d, hd, hname⟩ ⟨d', hd', hname'⟩
      exact position_eq hdistinct.names hd hd' (hname.trans hname'.symm)
  apply List.rel_nodup hunique
  rw [List.forall₂_map_left_iff, List.forall₂_map_right_iff]
  exact h.imp fun p c ⟨d, o, hd, hname, _⟩ => ⟨d, hd, hname⟩

theorem exists_namesAll (hdistinct : Distinct dimensions)
    (h : ∀ p ∈ keys, Offers dimensions p.1 p.2) : ∃ cs, NamesAll dimensions keys cs := by
  induction keys with
  | nil => exact ⟨[], .nil⟩
  | cons p rest ih =>
    obtain ⟨hp, hrest⟩ := List.forall_mem_cons.1 h
    obtain ⟨c, hc⟩ := exists_names hdistinct hp
    obtain ⟨cs, hcs⟩ := ih hrest
    exact ⟨c :: cs, .cons hc hcs⟩

theorem NamesAll.offers (h : NamesAll dimensions keys cs) :
    ∀ p ∈ keys, Offers dimensions p.1 p.2 := by
  induction h with
  | nil => simp
  | cons hnames _ ih => exact List.forall_mem_cons.2 ⟨hnames.offers, ih⟩

theorem compileKeys_eq_ok_iff (hdistinct : Distinct dimensions) {seen stated : List Choice}
    (hseen : (seen.map (·.dimension)).Nodup) :
    compileKeys recipe dimensions seen keys = .ok stated ↔
      ∃ cs, NamesAll dimensions keys cs ∧ (seen.map (·.dimension) ++ cs.map (·.dimension)).Nodup ∧
        stated = seen ++ cs := by
  induction keys generalizing seen with
  | nil => simp [compileKeys, NamesAll, hseen, eq_comm]
  | cons p rest ih =>
    obtain ⟨dimension, option⟩ := p
    rw [compileKeys]
    simp only [NamesAll, List.forall₂_cons_left_iff]
    rcases locate_spec hdistinct recipe dimension option with ⟨c, hc, hnames⟩ | ⟨e, he, hrefused⟩
    · rw [hc]
      simp only
      by_cases hold : c.dimension ∈ seen.map (·.dimension)
      · rw [if_pos (by simpa using hold)]
        refine iff_of_false nofun ?_
        rintro ⟨_, ⟨c', cs, hc', -, rfl⟩, hnodup, -⟩
        obtain rfl := hc'.unique hdistinct hnames
        rw [List.map_cons, nodup_append_cons_iff] at hnodup
        exact hnodup.1 hold
      · rw [if_neg (by simpa using hold), ih (nodup_append_new (x := c) hseen hold)]
        constructor
        · rintro ⟨cs, hcs, hnodup, rfl⟩
          exact ⟨c :: cs, ⟨c, cs, hnames, hcs, rfl⟩, by simpa using hnodup, by simp⟩
        · rintro ⟨_, ⟨c', cs, hc', hcs, rfl⟩, hnodup, rfl⟩
          obtain rfl := hc'.unique hdistinct hnames
          exact ⟨cs, hcs, by simpa using hnodup, by simp⟩
    · rw [he]
      refine iff_of_false nofun ?_
      rintro ⟨_, ⟨c', cs, hc', -, -⟩, -⟩
      exact hrefused.not_offers hdistinct hc'.offers

/-! ## Choices in order -/

theorem mem_choices (hdistinct : Distinct dimensions) (hnodup : (keys.map (·.1)).Nodup) :
    c ∈ choices dimensions keys ↔ ∃ p ∈ keys, Names dimensions p.1 p.2 c := by
  rw [choices, List.mem_filterMap]
  constructor
  · rintro ⟨⟨d, i⟩, hd, hc⟩
    obtain ⟨j, hj, rfl⟩ := Option.map_eq_some_iff.1 hc
    rw [List.mem_zipIdx_iff_getElem?] at hd
    unfold Dimension.index? at hj
    split at hj
    · next option hoption =>
      have hnames := hdistinct.options d (List.mem_of_getElem? hd)
      obtain ⟨o, ho, honame⟩ := (findIdx?_eq_some_iff hnames).1 hj
      exact ⟨_, mem_of_selected? hoption, d, o, hd, rfl, ho, honame⟩
    · cases hj
  · rintro ⟨⟨dimension, option⟩, hp, d, o, hd, hdname, ho, honame⟩
    subst hdname honame
    have hnames := hdistinct.options d (List.mem_of_getElem? hd)
    have hindex : d.index? none keys = some c.option := by
      rw [Dimension.index?, (selected?_eq_some_iff hnodup).2 hp]
      exact (findIdx?_eq_some_iff hnames).2 ⟨o, ho, rfl⟩
    exact ⟨(d, c.dimension), List.mem_zipIdx_iff_getElem?.2 hd,
      congrArg (Option.map (Choice.mk c.dimension)) hindex⟩

theorem pairwise_zipIdx {α : Type} (l : List α) : l.zipIdx.Pairwise (·.2 < ·.2) := by
  rw [← List.pairwise_map (f := Prod.snd) (R := (· < ·)), List.zipIdx_map_snd]
  exact List.pairwise_lt_range' 1

/-- The choices ascend by dimension. -/
theorem pairwise_choices (dimensions : List Dimension) (keys : List (String × String)) :
    (choices dimensions keys).Pairwise (·.dimension < ·.dimension) := by
  rw [choices, List.pairwise_filterMap]
  refine (pairwise_zipIdx dimensions).imp fun {x y} hlt => ?_
  intro a ha b hb
  obtain ⟨i, -, rfl⟩ := Option.map_eq_some_iff.1 ha
  obtain ⟨j, -, rfl⟩ := Option.map_eq_some_iff.1 hb
  exact hlt

theorem Choice.le_of_lt (h : c.dimension < c'.dimension) : c.le c' = true := by
  simp [Choice.le, h]

theorem Choice.le_antisymm (h : c.le c' = true) (h' : c'.le c = true) : c = c' := by
  obtain ⟨i, j⟩ := c
  obtain ⟨i', j'⟩ := c'
  simp only [Choice.le, Bool.or_eq_true, Bool.and_eq_true, decide_eq_true_eq, beq_iff_eq] at h h'
  rw [Choice.mk.injEq]
  omega

theorem pairwise_mergeSort_choice (cs : List Choice) :
    (cs.mergeSort Choice.le).Pairwise (·.le · = true) := by
  apply List.pairwise_mergeSort
  · intro a b c hab hbc
    simp only [Choice.le, Bool.or_eq_true, Bool.and_eq_true, decide_eq_true_eq, beq_iff_eq] at *
    omega
  · intro a b
    simp only [Choice.le, Bool.or_eq_true, Bool.and_eq_true, decide_eq_true_eq, beq_iff_eq]
    omega

/-- Sorting the named choices gives them by dimension. -/
theorem NamesAll.mergeSort_eq (h : NamesAll dimensions keys cs) (hdistinct : Distinct dimensions)
    (hnodup : (cs.map (·.dimension)).Nodup) :
    cs.mergeSort Choice.le = choices dimensions keys := by
  have hascending := pairwise_choices dimensions keys
  have hperm : cs.Perm (choices dimensions keys) := by
    rw [List.perm_ext_iff_of_nodup hnodup.of_map (hascending.imp (by rintro a b hlt rfl; omega))]
    intro c
    rw [h.mem_iff hdistinct, mem_choices hdistinct ((h.nodup_iff hdistinct).2 hnodup)]
  apply List.Perm.eq_of_pairwise (fun a b _ _ => Choice.le_antisymm) (pairwise_mergeSort_choice cs)
  · exact hascending.imp Choice.le_of_lt
  · exact (List.mergeSort_perm cs Choice.le).trans hperm

/-- Compounds have the same keys by position if they have the same keys by name. -/
theorem choices_eq_iff_perm (hdistinct : Distinct dimensions)
    (hkeys : ∀ p ∈ keys, Offers dimensions p.1 p.2) (hnodup : (keys.map (·.1)).Nodup)
    (hkeys' : ∀ p ∈ keys', Offers dimensions p.1 p.2) (hnodup' : (keys'.map (·.1)).Nodup) :
    choices dimensions keys = choices dimensions keys' ↔ keys.Perm keys' := by
  constructor
  · intro heq
    rw [List.perm_ext_iff_of_nodup hnodup.of_map hnodup'.of_map]
    -- a pair is a key if its choice is one
    have hmem {keys : List (String × String)} (hnodup : (keys.map (·.1)).Nodup) {p c}
        (hnames : Names dimensions p.1 p.2 c) : p ∈ keys ↔ c ∈ choices dimensions keys := by
      rw [mem_choices hdistinct hnodup]
      refine ⟨fun hp => ⟨p, hp, hnames⟩, ?_⟩
      rintro ⟨p', hp', hnames'⟩
      rwa [hnames.pair_eq hnames']
    intro p
    constructor
    · intro hp
      obtain ⟨c, hc⟩ := exists_names hdistinct (hkeys p hp)
      rwa [hmem hnodup' hc, ← heq, ← hmem hnodup hc]
    · intro hp
      obtain ⟨c, hc⟩ := exists_names hdistinct (hkeys' p hp)
      rwa [hmem hnodup hc, heq, ← hmem hnodup' hc]
  · intro hperm
    simp only [choices, Dimension.index?, selected?_perm hperm hnodup']

/-! ## Compounds -/

variable {seen : List Compound} {front rest stated : List CompoundDefinition}
  {c : CompoundDefinition}

/-- Keys of a compound, as far as they concern the dimensions. -/
def Keyed (dimensions : List Dimension) (keys : List (String × String)) : Prop :=
  keys ≠ [] ∧ (∀ p ∈ keys, Offers dimensions p.1 p.2) ∧ (keys.map (·.1)).Nodup

theorem compileKeys_nil_eq_ok_iff (hdistinct : Distinct dimensions) :
    compileKeys recipe dimensions [] keys = .ok cs ↔
      NamesAll dimensions keys cs ∧ (cs.map (·.dimension)).Nodup := by
  have h : compileKeys recipe dimensions [] keys = .ok cs ↔ _ := compileKeys_eq_ok_iff hdistinct .nil
  rw [h]
  simp only [List.map_nil, List.nil_append]
  constructor
  · rintro ⟨cs, hcs, hnodup, rfl⟩
    exact ⟨hcs, hnodup⟩
  · rintro ⟨hcs, hnodup⟩
    exact ⟨cs, hcs, hnodup, rfl⟩

theorem exists_compileKeys_iff (hdistinct : Distinct dimensions) (recipe : String) :
    (∃ cs, compileKeys recipe dimensions [] keys = .ok cs) ↔
      (∀ p ∈ keys, Offers dimensions p.1 p.2) ∧ (keys.map (·.1)).Nodup := by
  simp only [compileKeys_nil_eq_ok_iff hdistinct]
  constructor
  · rintro ⟨cs, hcs, hnodup⟩
    exact ⟨hcs.offers, (hcs.nodup_iff hdistinct).2 hnodup⟩
  · rintro ⟨hoffers, hnodup⟩
    obtain ⟨cs, hcs⟩ := exists_namesAll hdistinct hoffers
    exact ⟨cs, hcs, (hcs.nodup_iff hdistinct).1 hnodup⟩

theorem keyed_of_compileCompounds (hdistinct : Distinct dimensions)
    {result : List Compound × List Warning}
    (h : compileCompounds recipe dimensions seen (c :: rest) = .ok result) :
    Keyed dimensions c.keys := by
  rw [compileCompounds] at h
  split at h
  · cases h
  · next hempty =>
    obtain ⟨cs, hcs, -⟩ := bind_eq_ok.1 h
    exact ⟨by simpa using hempty, (exists_compileKeys_iff hdistinct recipe).1 ⟨cs, hcs⟩⟩

/-- A compound is kept unless its keys are there already. -/
theorem compileCompounds_cons (hdistinct : Distinct dimensions) (hc : Keyed dimensions c.keys) :
    compileCompounds recipe dimensions seen (c :: rest) =
      if seen.any (·.keys = choices dimensions c.keys) then do
        let (compounds, warnings) ← compileCompounds recipe dimensions seen rest
        return (compounds,
          .duplicateCompound recipe (c.compiled recipe dimensions).className :: warnings)
      else compileCompounds recipe dimensions (seen ++ [c.compiled recipe dimensions]) rest := by
  obtain ⟨cs, hcs⟩ := (exists_compileKeys_iff hdistinct recipe).2 hc.2
  obtain ⟨hnames, hnodup⟩ := (compileKeys_nil_eq_ok_iff hdistinct).1 hcs
  have hempty : ¬ c.keys.isEmpty = true := by simpa using hc.1
  rw [compileCompounds, if_neg hempty, hcs, CompoundDefinition.compiled,
    ← hnames.mergeSort_eq hdistinct hnodup]
  rfl

/-- The compounds in front, of which those in `seen` were kept, have the same keys by position. -/
def Covers (dimensions : List Dimension) (seen : List Compound)
    (front : List CompoundDefinition) : Prop :=
  ∀ keys, (∃ s ∈ seen, s.keys = keys) ↔ ∃ c ∈ front, choices dimensions c.keys = keys

theorem Covers.concat (h : Covers dimensions seen front) :
    Covers dimensions (seen ++ [c.compiled recipe dimensions]) (front ++ [c]) := by
  intro keys
  simp only [List.mem_append, List.mem_singleton, or_and_right, exists_or, exists_eq_left]
  rw [h keys]
  rfl

theorem Covers.restate (h : Covers dimensions seen front)
    (hc : ∃ s ∈ seen, s.keys = choices dimensions c.keys) :
    Covers dimensions seen (front ++ [c]) := by
  intro keys
  simp only [List.mem_append, List.mem_singleton, or_and_right, exists_or, exists_eq_left]
  rw [← h keys]
  refine (or_iff_left_of_imp ?_).symm
  rintro rfl
  exact hc

/-- A compound is found among the kept ones if a compound in front has the same keys. -/
theorem Covers.any_iff (h : Covers dimensions seen front) (hdistinct : Distinct dimensions)
    (hfront : ∀ c ∈ front, Keyed dimensions c.keys) (hc : Keyed dimensions c.keys)
    (hcs : front ++ c :: rest = stated) :
    seen.any (·.keys = choices dimensions c.keys) = true ↔
      CompoundDefinition.Restates stated (c, front.length) := by
  rw [CompoundDefinition.Restates, ← hcs, List.take_left, List.any_eq_true]
  simp only [decide_eq_true_eq]
  rw [h]
  refine exists_congr fun c' => and_congr_right fun hc' => ?_
  obtain ⟨-, hoffers, hnodup⟩ := hfront c' hc'
  exact choices_eq_iff_perm hdistinct hoffers hnodup hc.2.1 hc.2.2

theorem compileCompounds_eq_ok_iff (hdistinct : Distinct dimensions) {compounds : List Compound}
    {warnings : List Warning} (hcovers : Covers dimensions seen front)
    (hfront : ∀ c ∈ front, Keyed dimensions c.keys) (hcs : front ++ rest = stated) :
    compileCompounds recipe dimensions seen rest = .ok (compounds, warnings) ↔
      (∀ c ∈ rest, Keyed dimensions c.keys) ∧
      compounds = seen ++ ((rest.zipIdx front.length).filter
        (¬ CompoundDefinition.Restates stated ·)).map (·.1.compiled recipe dimensions) ∧
      warnings = ((rest.zipIdx front.length).filter
        (CompoundDefinition.Restates stated ·)).map
          fun c => .duplicateCompound recipe (c.1.compiled recipe dimensions).className := by
  induction rest generalizing seen front warnings with
  | nil => simp [compileCompounds, eq_comm]
  | cons c rest ih =>
    by_cases hc : Keyed dimensions c.keys
    · have hfront' : ∀ c' ∈ front ++ [c], Keyed dimensions c'.keys := by
        simpa [or_imp, forall_and] using ⟨hfront, hc⟩
      have hcs' : front ++ [c] ++ rest = stated := by simpa using hcs
      have hany := hcovers.any_iff hdistinct hfront hc hcs
      rw [compileCompounds_cons hdistinct hc, List.zipIdx_cons]
      by_cases hrestates : CompoundDefinition.Restates stated (c, front.length)
      · have hseen := hany.2 hrestates
        have hcovers' := hcovers.restate (c := c) (by simpa using hseen)
        have hrest (warnings : List Warning) :
            compileCompounds recipe dimensions seen rest = .ok (compounds, warnings) ↔ _ :=
          ih hcovers' hfront' hcs'
        rw [if_pos hseen, bind_eq_ok, List.filter_cons_of_neg (by simpa using hrestates),
          List.filter_cons_of_pos (by simpa using hrestates)]
        simp only [List.length_append, List.length_singleton] at hrest
        constructor
        · rintro ⟨⟨compounds', warnings'⟩, hok, heq⟩
          cases heq
          obtain ⟨hkeyed, hcompounds, rfl⟩ := (hrest warnings').1 hok
          exact ⟨List.forall_mem_cons.2 ⟨hc, hkeyed⟩, hcompounds, rfl⟩
        · rintro ⟨hkeyed, hcompounds, rfl⟩
          exact ⟨_, (hrest _).2 ⟨(List.forall_mem_cons.1 hkeyed).2, hcompounds, rfl⟩, rfl⟩
      · have hseen := mt hany.1 hrestates
        rw [if_neg hseen, ih hcovers.concat hfront' hcs']
        simp [hrestates, hc]
    · refine iff_of_false (fun h => hc (keyed_of_compileCompounds hdistinct h)) ?_
      rintro ⟨h, -⟩
      exact hc (h c List.mem_cons_self)

/-! ## The result of compiling -/

theorem distinct_table (hdimensions : (r.dimensions.map (·.name)).Nodup)
    (hoptions : ∀ d ∈ r.dimensions, (d.options.map (·.1)).Nodup) : Distinct r.table.dimensions := by
  constructor
  · rw [RecipeDefinition.table, List.map_map]
    exact hdimensions
  · intro d hd
    obtain ⟨stated, hstated, rfl⟩ := List.mem_map.1 hd
    rw [DimensionDefinition.compiled, List.map_map]
    exact hoptions stated hstated

theorem offers_table_iff : Offers r.table.dimensions p.1 p.2 ↔ r.Declares p := by
  simp [Offers, RecipeDefinition.Declares, RecipeDefinition.table, DimensionDefinition.compiled]

theorem keyed_table_iff : Keyed r.table.dimensions keys ↔ r.Admits keys := by
  simp only [Keyed, offers_table_iff]
  exact ⟨fun ⟨h, h', h''⟩ => ⟨h, h', h''⟩, fun ⟨h, h', h''⟩ => ⟨h, h', h''⟩⟩

theorem compileDimensions_table_iff :
    compileDimensions r.table.name [] r.dimensions = .ok dimensions ↔
      ((r.dimensions.map (·.name)).Nodup ∧ ∀ d ∈ r.dimensions, (d.options.map (·.1)).Nodup) ∧
      dimensions = r.table.dimensions :=
  compileDimensions_eq_ok_iff .nil

theorem compileDefaults_table_iff (hdistinct : Distinct r.table.dimensions)
    {defaults : List (Option Nat)} :
    compileDefaults r.table.name r.table.dimensions (r.table.dimensions.map fun _ => none)
        r.defaults = .ok defaults ↔
      (∀ p ∈ r.defaults, r.Declares p) ∧ defaults = r.table.defaults := by
  rw [compileDefaults_eq_choose, mapError_eq_ok_iff,
    choose_eq_ok_iff hdistinct (defaults_none _).length_eq, List.zipWith_map_right,
    List.zipWith_self]
  simp only [offers_table_iff]
  rfl

theorem compileCompounds_table_iff (hdistinct : Distinct r.table.dimensions)
    {compounds : List Compound} {warnings : List Warning} :
    compileCompounds r.table.name r.table.dimensions [] r.compounds = .ok (compounds, warnings) ↔
      (∀ c ∈ r.compounds, r.Admits c.keys) ∧
      compounds = r.table.compounds ∧ warnings = r.notices := by
  have hcovers : Covers r.table.dimensions [] [] := fun keys => by simp
  have hfirst : r.table.compounds = _ := List.map_map
  have hrepeated : r.notices = _ := List.map_map
  rw [compileCompounds_eq_ok_iff hdistinct hcovers (by simp) (List.nil_append _), hfirst, hrepeated]
  simp only [keyed_table_iff]
  rfl

/-- **Compiling accepts the valid definitions** and gives their tables. -/
theorem compile_eq_ok_iff {recipe : Recipe} {warnings : List Warning} :
    compile r = .ok (recipe, warnings) ↔
      r.Valid ∧ recipe = r.table ∧ warnings = r.notices := by
  rw [compile, mapError_eq_ok_iff, compileParts]
  by_cases hname : Text.trimmed r.name = ""
  · rw [if_pos hname]
    exact iff_of_false nofun fun h => h.1.name hname
  rw [if_neg hname]
  constructor
  · intro h
    obtain ⟨dimensions, hdimensions, h⟩ := bind_eq_ok.1 h
    obtain ⟨⟨hnames, hoptions⟩, rfl⟩ := compileDimensions_table_iff.1 hdimensions
    have hdistinct := distinct_table hnames hoptions
    obtain ⟨defaults, hdefaults, h⟩ := bind_eq_ok.1 h
    obtain ⟨hdeclared, rfl⟩ := (compileDefaults_table_iff hdistinct).1 hdefaults
    obtain ⟨⟨compounds, warnings'⟩, hcompounds, h⟩ := bind_eq_ok.1 h
    obtain ⟨hadmits, rfl, rfl⟩ := (compileCompounds_table_iff hdistinct).1 hcompounds
    cases h
    exact ⟨⟨hname, hnames, hoptions, hdeclared, hadmits⟩, rfl, rfl⟩
  · rintro ⟨h, rfl, rfl⟩
    have hdistinct := distinct_table h.dimensions h.options
    refine bind_eq_ok.2 ⟨r.table.dimensions,
      compileDimensions_table_iff.2 ⟨⟨h.dimensions, h.options⟩, rfl⟩, ?_⟩
    refine bind_eq_ok.2 ⟨r.table.defaults,
      (compileDefaults_table_iff hdistinct).2 ⟨h.defaults, rfl⟩, ?_⟩
    exact bind_eq_ok.2 ⟨(r.table.compounds, r.notices),
      (compileCompounds_table_iff hdistinct).2 ⟨h.compounds, rfl, rfl⟩, rfl⟩

/-! ## Facts about tables -/

theorem mem_of_mem_firstCompounds (h : c ∈ r.firstCompounds) : c ∈ r.compounds := by
  obtain ⟨x, hx, rfl⟩ := List.mem_map.1 h
  exact List.fst_mem_of_mem_zipIdx (List.mem_filter.1 hx).1

/-- No two of the first compounds have the same keys. -/
theorem pairwise_firstCompounds (r : RecipeDefinition) :
    r.firstCompounds.Pairwise fun c c' => ¬ c.keys.Perm c'.keys := by
  have hascending : r.compounds.zipIdx.Pairwise (·.2 < ·.2) := pairwise_zipIdx r.compounds
  rw [RecipeDefinition.firstCompounds, List.pairwise_map]
  refine (hascending.filter _).imp_of_mem fun {x y} hx hy hlt hperm => ?_
  have hx := List.mem_zipIdx_iff_getElem?.1 (List.mem_filter.1 hx).1
  have hy : ¬ CompoundDefinition.Restates r.compounds y := by simpa using (List.mem_filter.1 hy).2
  refine hy ⟨x.1, List.mem_of_getElem? (i := x.2) ?_, hperm⟩
  rw [List.getElem?_take_of_lt hlt, hx]

theorem firstCompounds_append_repeatedCompounds_perm (r : RecipeDefinition) :
    (r.firstCompounds ++ r.repeatedCompounds).Perm r.compounds := by
  have hperm := List.filter_append_perm (CompoundDefinition.Restates r.compounds ·)
    r.compounds.zipIdx
  have hmap := hperm.map Prod.fst
  rw [List.map_append, List.zipIdx_map_fst] at hmap
  refine (List.perm_append_comm).trans (.trans (.of_eq ?_) hmap)
  simp [RecipeDefinition.firstCompounds, RecipeDefinition.repeatedCompounds]

theorem wellFormed_table (h : r.Valid) : r.table.WellFormed := by
  have hdistinct := distinct_table h.dimensions h.options
  refine ⟨hdistinct, ?_, ?_⟩
  · have hdefaults := (defaults_none r.table.dimensions).zipWith_index? r.defaults
    rwa [List.zipWith_map_right, List.zipWith_self] at hdefaults
  · intro c hc k hk
    obtain ⟨stated, hstated, rfl⟩ := List.mem_map.1 hc
    have hadmits := h.compounds stated (mem_of_mem_firstCompounds hstated)
    obtain ⟨p, -, hp⟩ := (mem_choices hdistinct hadmits.distinct).1 hk
    exact hp.isSome_option?

theorem wellFormed_of_compile {recipe : Recipe} {warnings : List Warning}
    (h : compile r = .ok (recipe, warnings)) : recipe.WellFormed := by
  obtain ⟨hvalid, rfl, -⟩ := compile_eq_ok_iff.1 h
  exact wellFormed_table hvalid

/-- The main result. A definition is accepted if and only if it is valid. The recipe has its
dimensions and options in order, for each dimension the option of the last default pair, and the
compounds that are the first with their keys, which stand by position in the order of dimensions.
Each other compound is reported. Whatever is looked up by position has an option there: what a name
is located at, the keys of a compound, and what is chosen, by default or by a selection. -/
theorem compile_valid (definition : RecipeDefinition) :
    ((∃ result, compile definition = .ok result) ↔ definition.Valid) ∧
    ∀ r warnings, compile definition = .ok (r, warnings) →
      (r.name = Text.trimmed definition.name ∧ r.base = definition.base ∧
        r.dimensions = definition.dimensions.map (·.compiled r.name)) ∧
      r.defaults = r.dimensions.map (·.index? none definition.defaults) ∧
      (r.compounds = definition.firstCompounds.map (·.compiled r.name r.dimensions) ∧
        warnings = definition.repeatedCompounds.map (fun c =>
          .duplicateCompound r.name (c.compiled r.name r.dimensions).className) ∧
        (definition.firstCompounds ++ definition.repeatedCompounds).Perm definition.compounds) ∧
      (∀ c ∈ definition.compounds,
        (choices r.dimensions c.keys).Pairwise (·.dimension < ·.dimension) ∧
        ∀ k, k ∈ choices r.dimensions c.keys ↔ ∃ p ∈ c.keys, Names r.dimensions p.1 p.2 k) ∧
      (∀ dimension option k, locate r.name r.dimensions dimension option = .ok k →
        (k.option? r.dimensions).isSome) ∧
      (∀ c ∈ definition.compounds, ∀ k ∈ choices r.dimensions c.keys,
        (k.option? r.dimensions).isSome) ∧
      ∀ selection chosen, r.choose r.defaults selection = .ok chosen →
        Defaults r.dimensions chosen := by
  constructor
  · refine ⟨fun ⟨(r, warnings), h⟩ => (compile_eq_ok_iff.1 h).1, fun h => ?_⟩
    exact ⟨(definition.table, definition.notices), compile_eq_ok_iff.2 ⟨h, rfl, rfl⟩⟩
  · rintro r warnings h
    obtain ⟨hvalid, rfl, rfl⟩ := compile_eq_ok_iff.1 h
    have hr := wellFormed_table hvalid
    have hmem (c : CompoundDefinition) (hc : c ∈ definition.compounds) {k : Choice} :
        k ∈ choices definition.table.dimensions c.keys ↔ _ :=
      mem_choices hr.distinct (hvalid.compounds c hc).distinct
    refine ⟨⟨rfl, rfl, rfl⟩, rfl,
      ⟨rfl, rfl, firstCompounds_append_repeatedCompounds_perm definition⟩,
      fun c hc => ⟨pairwise_choices _ _, fun k => hmem c hc⟩,
      fun dimension option k hk => (names_of_locate hr.distinct hk).isSome_option?,
      fun c hc k hk => ?_, fun selection chosen => hr.defaults.choose hr.distinct⟩
    obtain ⟨p, -, hp⟩ := (hmem c hc).1 hk
    exact hp.isSome_option?

/-- A panel whose name has blanks around it, with two defaults for one dimension, and two compounds
that differ in the order of their keys. -/
def panelDefinition : RecipeDefinition where
  name := " panel "
  base := .empty
  dimensions := [⟨"size", [("sm", .empty), ("lg", .empty)]⟩,
    ⟨"tone", [("plain", .empty), ("quiet", .empty)]⟩]
  compounds := [⟨[("tone", "quiet"), ("size", "lg")], .empty⟩,
    ⟨[("size", "lg"), ("tone", "quiet")], .empty⟩]
  defaults := [("tone", "plain"), ("tone", "quiet")]

theorem compile_valid_panel :
    ∃ r, compile panelDefinition =
        .ok (r, [.duplicateCompound "panel" "panel--size-lg--tone-quiet"]) ∧
      r.compounds.map (·.keys) = [[⟨0, 1⟩, ⟨1, 1⟩]] ∧ r.defaults = [none, some 1] ∧
      ¬ ∃ result, compile { panelDefinition with defaults := [("tone", "loud")] } = .ok result := by
  obtain ⟨⟨r, warnings⟩, h⟩ := (compile_valid panelDefinition).1.2 (by decide)
  obtain ⟨⟨hname, -, hdimensions⟩, hdefaults, ⟨hcompounds, hwarnings, -⟩, -⟩ :=
    (compile_valid panelDefinition).2 r warnings h
  have hname : r.name = "panel" := hname.trans (by decide)
  rw [hname] at hdimensions hcompounds hwarnings
  rw [hdimensions] at hdefaults hcompounds hwarnings
  have hrefused := (compile_valid { panelDefinition with defaults := [("tone", "loud")] }).1
  refine ⟨r, h.trans ?_, ?_, hdefaults.trans (by decide), mt hrefused.1 (by decide)⟩
  · rw [hwarnings]
    rfl
  · rw [hcompounds]
    rfl

end Recipe

end AtomicCss
