import AtomicCss.Proofs.Recipe.Table

/-! # Choosing options

Which option of a dimension is chosen is told by names alone: the last one selected for it, or else
its default. The classes of a component follow from these options, so it does not matter by which
positions a recipe finds them, nor in which order different dimensions are selected
(`resolve_chosen`). -/

namespace AtomicCss

/-- The chosen option of a dimension: the selected one, or else the default. -/
def Dimension.chosen? (d : Dimension) (default : Option Nat) (selection : List (String × String)) :
    Option RecipeOption :=
  match selected? selection d.name with
  | some option => d.options.find? (·.name = option)
  | none => default.bind (d.options[·]?)

namespace Recipe

/-- The chosen option of each dimension. -/
def chosen (r : Recipe) (selection : List (String × String)) : List (Option RecipeOption) :=
  List.zipWith (·.chosen? · selection) r.dimensions r.defaults

/-- The base, each compound whose options are all chosen, and each chosen option. -/
def chosenClasses (r : Recipe) (selection : List (String × String)) : List String :=
  r.name :: (r.compounds.filter fun c => ∀ k ∈ c.keys,
      (r.chosen selection)[k.dimension]? = some (k.option? r.dimensions)).map (·.className) ++
    (r.chosen selection).filterMap (·.map (·.className))

variable {recipe dimension option : String} {dimensions : List Dimension} {c : Choice}
  {r : Recipe} {selection rest : List (String × String)} {p : String × String} {d : Dimension}
  {e : VariantError}

/-! ## The first refused pair -/

/-- Choosing stops at the first pair that is refused. -/
theorem choose_eq_error_iff (hdistinct : Distinct r.dimensions) (chosen : List (Option Nat)) :
    r.choose chosen selection = .error e ↔ ∃ front p back, selection = front ++ p :: back ∧
      (∀ q ∈ front, Offers r.dimensions q.1 q.2) ∧ Refused r.name r.dimensions p.1 p.2 e := by
  induction selection generalizing chosen with
  | nil => simp [choose]
  | cons p rest ih =>
    obtain ⟨dimension, option⟩ := p
    rw [choose]
    rcases locate_spec hdistinct r.name dimension option with ⟨c, hc, hnames⟩ | ⟨e', he', hrefused⟩
    · simp only [hc, ih]
      constructor
      · rintro ⟨front, p, back, rfl, hfront, hp⟩
        exact ⟨(dimension, option) :: front, p, back, rfl,
          List.forall_mem_cons.2 ⟨hnames.offers, hfront⟩, hp⟩
      · rintro ⟨front, p, back, heq, hfront, hp⟩
        cases front with
        | nil =>
          cases heq
          exact absurd hnames.offers (hp.not_offers hdistinct)
        | cons q front =>
          cases heq
          exact ⟨front, p, back, rfl, (List.forall_mem_cons.1 hfront).2, hp⟩
    · simp only [he']
      constructor
      · intro heq
        cases heq
        exact ⟨[], _, rest, rfl, by simp, hrefused⟩
      · rintro ⟨front, p, back, heq, hfront, hp⟩
        cases front with
        | nil =>
          cases heq
          rw [hrefused.unique hp]
        | cons q front =>
          cases heq
          exact absurd (List.forall_mem_cons.1 hfront).1 (hrefused.not_offers hdistinct)

/-! ## The chosen options -/

/-- The chosen option stands at the chosen position. -/
theorem chosen?_eq_bind (default : Option Nat) :
    d.chosen? default selection = (d.index? default selection).bind (d.options[·]?) := by
  rw [Dimension.chosen?, Dimension.index?]
  cases selected? selection d.name with
  | none => rfl
  | some option => exact List.find?_eq_bind_findIdx?_getElem?

theorem zipWith_chosen? (dimensions : List Dimension) (chosen : List (Option Nat)) :
    List.zipWith (·.chosen? · selection) dimensions chosen =
      List.zipWith (·.chosen? · []) dimensions
        (List.zipWith (·.index? · selection) dimensions chosen) := by
  apply List.ext_getElem?
  intro i
  simp only [List.getElem?_zipWith]
  cases dimensions[i]? with
  | none => rfl
  | some d =>
    cases chosen[i]? with
    | none => rfl
    | some default => exact congrArg some (chosen?_eq_bind default)

/-- A position is the one of an option when it stands for that option. -/
theorem bind_options_eq_some_iff (hnames : (d.options.map (·.name)).Nodup) {o : RecipeOption}
    {i : Nat} (ho : d.options[i]? = some o) {choice : Option Nat} :
    choice.bind (d.options[·]?) = some o ↔ choice = some i := by
  constructor
  · intro h
    obtain ⟨j, rfl, hj⟩ := Option.bind_eq_some_iff.1 h
    rw [position_eq hnames hj ho rfl]
  · rintro rfl
    exact ho

/-- A compound applies when each of its choices is of the chosen option. -/
theorem applies_iff (hdistinct : Distinct dimensions) {chosen : List (Option Nat)}
    (hlength : chosen.length = dimensions.length) {compound : Compound}
    (hkeys : ∀ k ∈ compound.keys, (k.option? dimensions).isSome) :
    compound.applies chosen ↔ ∀ k ∈ compound.keys,
      (List.zipWith (·.chosen? · []) dimensions chosen)[k.dimension]? =
        some (k.option? dimensions) := by
  rw [Compound.applies, List.all_eq_true]
  refine forall₂_congr fun k hk => ?_
  obtain ⟨o, ho⟩ := Option.isSome_iff_exists.1 (hkeys k hk)
  obtain ⟨d, hd, hdo⟩ := Option.bind_eq_some_iff.1 ho
  have hlt : k.dimension < chosen.length := by
    rw [hlength]
    exact (List.getElem?_eq_some_iff.1 hd).1
  have hnames := hdistinct.options d (List.mem_of_getElem? hd)
  rw [ho, List.getElem?_zipWith, hd, List.getElem?_eq_getElem hlt, beq_iff_eq, Option.some_inj,
    ← bind_options_eq_some_iff hnames hdo]
  exact Option.some_inj.symm

theorem filterMap_chosenClass (dimensions : List Dimension) (chosen : List (Option Nat)) :
    ((dimensions.zip chosen).filterMap fun (d, choice) => d.chosenClass choice) =
      (List.zipWith (·.chosen? · []) dimensions chosen).filterMap (·.map (·.className)) := by
  rw [← List.map_uncurry_zip_eq_zipWith, List.filterMap_map]
  exact List.filterMap_congr fun p _ => Option.map_bind.symm

/-- The classes that a recipe gives are those of the chosen options. -/
theorem resolve_of_offers (hr : r.WellFormed)
    (hoffers : ∀ p ∈ selection, Offers r.dimensions p.1 p.2) :
    r.resolve selection = .ok (r.chosenClasses selection) := by
  let chosen := List.zipWith (·.index? · selection) r.dimensions r.defaults
  have hchosen : r.choose r.defaults selection = .ok chosen :=
    (choose_eq_ok_iff hr.distinct hr.defaults.length_eq).2 ⟨hoffers, rfl⟩
  have hlength := (hr.defaults.zipWith_index? selection).length_eq
  have hoptions : r.chosen selection = _ := zipWith_chosen? r.dimensions r.defaults
  have hcompounds : r.compounds.filter (·.applies chosen) = r.compounds.filter fun c =>
      ∀ k ∈ c.keys, (r.chosen selection)[k.dimension]? = some (k.option? r.dimensions) := by
    refine List.filter_congr fun c hc => ?_
    rw [Bool.eq_iff_iff, decide_eq_true_iff, hoptions]
    exact applies_iff hr.distinct hlength (hr.keys c hc)
  simp only [resolve, hchosen, chosenClasses, hcompounds, filterMap_chosenClass]
  rw [hoptions]

/-- A recipe fails on a selection at the first pair that names no option. -/
theorem resolve_eq_error_iff (hdistinct : Distinct r.dimensions) :
    r.resolve selection = .error e ↔ ∃ front p back, selection = front ++ p :: back ∧
      (∀ q ∈ front, Offers r.dimensions q.1 q.2) ∧ Refused r.name r.dimensions p.1 p.2 e := by
  rw [← choose_eq_error_iff hdistinct r.defaults, resolve]
  cases r.choose r.defaults selection <;> simp

theorem offers_of_resolve (hr : r.WellFormed) {classes : List String}
    (h : r.resolve selection = .ok classes) : ∀ p ∈ selection, Offers r.dimensions p.1 p.2 := by
  rw [resolve] at h
  split at h
  · cases h
  · next hchosen => exact ((choose_eq_ok_iff hr.distinct hr.defaults.length_eq).1 hchosen).1

/-- A dimension has a chosen option when one is selected or there is a default. -/
theorem isSome_chosen? (hr : r.WellFormed) {i : Nat} {default : Option Nat}
    (hd : r.dimensions[i]? = some d) (hdefault : r.defaults[i]? = some default)
    (hoffers : ∀ p ∈ selection, Offers r.dimensions p.1 p.2) :
    (d.chosen? default selection).isSome ↔
      (∃ p ∈ selection, p.1 = d.name) ∨ default.isSome := by
  rw [← isSome_selected?, Dimension.chosen?]
  cases hselected : selected? selection d.name with
  | some option =>
    obtain ⟨d', hd', hname, o, ho, honame⟩ := hoffers _ (mem_of_selected? hselected)
    obtain rfl := List.inj_on_of_nodup_map hr.distinct.names hd' (List.mem_of_getElem? hd) hname
    have hfound : (d'.options.find? (·.name = option)).isSome :=
      List.find?_isSome.2 ⟨o, ho, by simpa using honame⟩
    simp [hfound]
  | none =>
    cases default with
    | none => simp
    | some o =>
      have hoption : (Choice.option? ⟨i, o⟩ r.dimensions).isSome := hr.defaults.option i o hdefault
      simpa [Choice.option?, hd] using hoption

theorem chosenClasses_perm {selection' : List (String × String)} (h : selection'.Perm selection)
    (hnodup : (selection.map (·.1)).Nodup) :
    r.chosenClasses selection' = r.chosenClasses selection := by
  have hchosen : r.chosen selection' = r.chosen selection := by
    simp only [chosen, Dimension.chosen?, selected?_perm h hnodup]
  rw [chosenClasses, hchosen, chosenClasses]

/-- The main result. A recipe fails on a selection exactly when some pair names no option, and then
at the first one. Otherwise it gives the classes of the options that are chosen, in whatever order
options of different dimensions are selected. -/
theorem resolve_chosen {definition : RecipeDefinition} {warnings : List Warning}
    (h : compile definition = .ok (r, warnings)) (selection : List (String × String)) :
    ((∃ e, r.resolve selection = .error e) ↔ ∃ p ∈ selection, ¬ Offers r.dimensions p.1 p.2) ∧
    (∀ e, r.resolve selection = .error e ↔ ∃ front p back, selection = front ++ p :: back ∧
      (∀ q ∈ front, Offers r.dimensions q.1 q.2) ∧ Refused r.name r.dimensions p.1 p.2 e) ∧
    ((∀ p ∈ selection, Offers r.dimensions p.1 p.2) →
      r.resolve selection = .ok (r.chosenClasses selection) ∧
      (∀ (i : Nat) d default, r.dimensions[i]? = some d → r.defaults[i]? = some default →
        ((d.chosen? default selection).isSome ↔
          (∃ p ∈ selection, p.1 = d.name) ∨ default.isSome)) ∧
      ((selection.map (·.1)).Nodup → ∀ selection', selection'.Perm selection →
        r.resolve selection' = .ok (r.chosenClasses selection))) ∧
    r.defaults.length = r.dimensions.length ∧
    ∀ c ∈ r.compounds, ∀ k ∈ c.keys, (k.option? r.dimensions).isSome := by
  have hr := wellFormed_of_compile h
  refine ⟨⟨?_, ?_⟩, fun e => resolve_eq_error_iff hr.distinct, fun hoffers =>
    ⟨resolve_of_offers hr hoffers,
      fun i d default hd hdefault => isSome_chosen? hr hd hdefault hoffers,
      fun hnodup selection' hperm => ?_⟩, hr.defaults.length_eq, hr.keys⟩
  · rintro ⟨e, he⟩
    obtain ⟨front, p, back, rfl, -, hp⟩ := (resolve_eq_error_iff hr.distinct).1 he
    exact ⟨p, by simp, hp.not_offers hr.distinct⟩
  · rintro ⟨p, hp, hrefused⟩
    cases hresult : r.resolve selection with
    | error e => exact ⟨e, rfl⟩
    | ok classes => exact absurd (offers_of_resolve hr hresult p hp) hrefused
  · rw [← chosenClasses_perm hperm hnodup]
    exact resolve_of_offers hr fun p hp => hoffers p (hperm.mem_iff.1 hp)

/-- A button with a default tone, and a compound whose keys are not stated in order. -/
def buttonDefinition : RecipeDefinition where
  name := "button"
  base := .empty
  dimensions := [⟨"size", [("sm", .empty), ("lg", .empty)]⟩,
    ⟨"tone", [("plain", .empty), ("quiet", .empty)]⟩]
  compounds := [⟨[("tone", "quiet"), ("size", "lg")], .empty⟩]
  defaults := [("tone", "plain")]

def button : Recipe where
  name := "button"
  base := .empty
  dimensions := [
    ⟨"size", [⟨"sm", "button--size-sm", .empty⟩, ⟨"lg", "button--size-lg", .empty⟩]⟩,
    ⟨"tone", [⟨"plain", "button--tone-plain", .empty⟩, ⟨"quiet", "button--tone-quiet", .empty⟩]⟩]
  compounds := [⟨[⟨0, 1⟩, ⟨1, 1⟩], "button--size-lg--tone-quiet", .empty⟩]
  defaults := [none, some 0]

theorem compile_button : compile buttonDefinition = .ok (button, []) := by
  have hsorted : [Choice.mk 1 1, ⟨0, 1⟩].mergeSort Choice.le = [⟨0, 1⟩, ⟨1, 1⟩] := by
    simp [List.mergeSort, List.MergeSort.Internal.splitInTwo, Choice.le]
  have hcompounds : compileCompounds "button" button.dimensions [] buttonDefinition.compounds =
      .ok (button.compounds, []) := by
    rw [buttonDefinition, compileCompounds, if_neg (by decide)]
    refine bind_eq_ok.2 ⟨[⟨1, 1⟩, ⟨0, 1⟩], rfl, ?_⟩
    rw [hsorted]
    rfl
  have hparts : compileParts "button" buttonDefinition = .ok (button, []) := by
    rw [compileParts, if_neg (by decide)]
    refine bind_eq_ok.2 ⟨button.dimensions, rfl, bind_eq_ok.2 ⟨button.defaults, rfl, ?_⟩⟩
    exact bind_eq_ok.2 ⟨_, hcompounds, rfl⟩
  exact congrArg (Except.mapError (.invalidDefinition "recipe")) hparts

theorem resolve_chosen_button :
    compile buttonDefinition = .ok (button, []) ∧
    button.resolve [("size", "sm"), ("size", "lg")] =
      .ok ["button", "button--size-lg", "button--tone-plain"] ∧
    button.resolve [("tone", "quiet"), ("size", "lg")] =
      .ok ["button", "button--size-lg--tone-quiet", "button--size-lg", "button--tone-quiet"] ∧
    button.resolve [("size", "lg"), ("tone", "quiet")] =
      button.resolve [("tone", "quiet"), ("size", "lg")] ∧
    button.resolve [("size", "lg"), ("shape", "round"), ("size", "xl")] =
      .error (.unknownDimension "button" "shape") := by
  have hrepeated :=
    (resolve_chosen compile_button [("size", "sm"), ("size", "lg")]).2.2.1 (by decide)
  have hboth :=
    (resolve_chosen compile_button [("tone", "quiet"), ("size", "lg")]).2.2.1 (by decide)
  have hswapped := hboth.2.2 (by decide) [("size", "lg"), ("tone", "quiet")] (by decide)
  have hrefused : Refused button.name button.dimensions "shape" "round"
      (.unknownDimension "button" "shape") := .dimension (by decide)
  exact ⟨compile_button, hrepeated.1, hboth.1, hswapped.trans hboth.1.symm,
    ((resolve_chosen compile_button _).2.1 _).2
      ⟨[("size", "lg")], ("shape", "round"), [("size", "xl")], rfl, by decide, hrefused⟩⟩

end Recipe

end AtomicCss
