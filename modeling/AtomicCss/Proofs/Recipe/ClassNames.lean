import AtomicCss.Proofs.Recipe.Choosing
import AtomicCss.Proofs.Text

/-! # Class names of a recipe

A class is named after the choices that it stands for, with dashes between the names. Dimensions and
options may hold dashes of their own, so a class name tells the words between its dashes, and not
always where one name ends and the next one begins. Two classes share a name exactly if their
choices read alike (`compoundClass_eq_iff`). A component then has the class of choices that were not
made (`Named.classOf_mem_iff`).

Choices with plain names never read alike (`Plain.reading_injective`). The main result is
`classNames_of_compile`. -/

namespace AtomicCss.Recipe

variable {recipe : String} {dimensions : List Dimension} {c c' : Choice} {ks ks' : List Choice}
  {r : Recipe} {selection : List (String × String)}

/-! ## Reading a class name -/

/-- The words of a name: what stands between its dashes. -/
def words (name : String) : List (List Char) := Text.fields (· == '-') name.toList

/-- The words of a choice's mark, which begins with two dashes. -/
def markWords (dimensions : List Dimension) (c : Choice) : List (List Char) :=
  match dimensions[c.dimension]? with
  | none => []
  | some d => [] :: words d.name ++ words ((d.options[c.option]?).elim "" (·.name))

/-- The words of the marks of some choices. -/
def reading (dimensions : List Dimension) (ks : List Choice) : List (List Char) :=
  ks.flatMap (markWords dimensions)

theorem flatMap_words (name : String) : (words name).flatMap ('-' :: ·) = '-' :: name.toList :=
  Text.flatMap_fields '-' name.toList

theorem toList_choiceMark (dimensions : List Dimension) (c : Choice) :
    (choiceMark dimensions c).toList = (markWords dimensions c).flatMap ('-' :: ·) := by
  rw [choiceMark, markWords]
  cases dimensions[c.dimension]? with
  | none => rfl
  | some d =>
    simp only [optionMark, String.toList_append, List.cons_append, List.flatMap_cons,
      List.flatMap_append, flatMap_words]
    simp

theorem toList_marks (dimensions : List Dimension) (ks : List Choice) :
    (String.join (ks.map (choiceMark dimensions))).toList =
      (reading dimensions ks).flatMap ('-' :: ·) := by
  rw [String.toList_join, List.flatMap_map, reading, List.flatMap_assoc]
  simp only [toList_choiceMark]

theorem dash_not_mem_words {name : String} {w : List Char} (h : w ∈ words name) :
    ∀ c ∈ w, (c == '-') = false :=
  Text.not_mem_of_mem_fields h

theorem dash_not_mem_reading {w : List Char} (h : w ∈ reading dimensions ks) :
    ∀ c ∈ w, (c == '-') = false := by
  obtain ⟨k, -, hw⟩ := List.mem_flatMap.1 h
  rw [markWords] at hw
  split at hw
  · cases hw
  · rcases List.mem_append.1 hw with hw | hw
    · rcases List.mem_cons.1 hw with rfl | hw
      · simp
      · exact dash_not_mem_words hw
    · exact dash_not_mem_words hw

/-- **Classes share a name if their choices read alike.** -/
theorem compoundClass_eq_iff :
    compoundClass recipe dimensions ks = compoundClass recipe dimensions ks' ↔
      reading dimensions ks = reading dimensions ks' := by
  rw [compoundClass, compoundClass, String.append_right_inj, ← String.toList_inj, toList_marks,
    toList_marks]
  refine ⟨fun h => ?_, congrArg _⟩
  exact Text.flatMap_cons_injective (p := (· == '-')) rfl (fun _ => dash_not_mem_reading)
    (fun _ => dash_not_mem_reading) h

/-! ## What classes stand for -/

/-- The single choices of each option. -/
def optionKeyings (r : Recipe) : List (List Choice) :=
  r.dimensions.zipIdx.flatMap fun (d, i) => (List.range d.options.length).map fun j => [⟨i, j⟩]

/-- The choices that each class stands for: none for the base, a single one for an option, and the
keys of a compound. -/
def keyings (r : Recipe) : List (List Choice) :=
  [] :: r.optionKeyings ++ r.compounds.map (·.keys)

/-- The class that stands for some choices. -/
def classOf (r : Recipe) (ks : List Choice) : String := compoundClass r.name r.dimensions ks

/-- Whether a selection makes all of some choices. -/
def Makes (r : Recipe) (selection : List (String × String)) (ks : List Choice) : Prop :=
  ∀ k ∈ ks, (r.chosen selection)[k.dimension]? = some (k.option? r.dimensions)

/-- A recipe whose classes are named after what they stand for. -/
structure Named (r : Recipe) : Prop where
  wellFormed : r.WellFormed
  option : ∀ c o, c.option? r.dimensions = some o → o.className = r.classOf [c]
  compound : ∀ c ∈ r.compounds, c.className = r.classOf c.keys
  keys_ne_nil : ∀ c ∈ r.compounds, c.keys ≠ []
  keys_distinct : (r.compounds.map (·.keys)).Nodup

theorem option?_eq_some_iff {o : RecipeOption} : c.option? dimensions = some o ↔
    ∃ d, dimensions[c.dimension]? = some d ∧ d.options[c.option]? = some o :=
  Option.bind_eq_some_iff

theorem mem_optionKeyings : ks ∈ r.optionKeyings ↔
    ∃ c, (c.option? r.dimensions).isSome ∧ ks = [c] := by
  rw [optionKeyings, List.mem_flatMap]
  constructor
  · rintro ⟨⟨d, i⟩, hd, hks⟩
    obtain ⟨j, hj, rfl⟩ := List.mem_map.1 hks
    refine ⟨⟨i, j⟩, ?_, rfl⟩
    simp [Choice.option?, List.mem_zipIdx_iff_getElem?.1 hd, List.mem_range.1 hj]
  · rintro ⟨⟨i, j⟩, hc, rfl⟩
    obtain ⟨o, ho⟩ := Option.isSome_iff_exists.1 hc
    obtain ⟨d, hd, ho⟩ := option?_eq_some_iff.1 ho
    refine ⟨(d, i), List.mem_zipIdx_iff_getElem?.2 hd, List.mem_map.2 ⟨j, ?_, rfl⟩⟩
    exact List.mem_range.2 (List.getElem?_eq_some_iff.1 ho).1

theorem nodup_optionKeyings (r : Recipe) : r.optionKeyings.Nodup := by
  rw [optionKeyings, List.nodup_flatMap]
  constructor
  · rintro ⟨d, i⟩ -
    apply List.nodup_range.map
    intro j j' heq
    simpa using heq
  · refine (pairwise_zipIdx r.dimensions).imp fun {x y} hlt => ?_
    refine List.disjoint_left.2 fun ks hx hy => ?_
    obtain ⟨j, -, rfl⟩ := List.mem_map.1 hx
    obtain ⟨j', -, heq⟩ := List.mem_map.1 hy
    simp only [List.cons.injEq, Choice.mk.injEq, and_true] at heq
    omega

theorem mem_keyings : ks ∈ r.keyings ↔
    ks = [] ∨ (∃ c, (c.option? r.dimensions).isSome ∧ ks = [c]) ∨
      ∃ c ∈ r.compounds, c.keys = ks := by
  rw [keyings, List.cons_append, List.mem_cons, List.mem_append, List.mem_map, mem_optionKeyings]

theorem classOf_nil (r : Recipe) : r.classOf [] = r.name := by
  simp [classOf, compoundClass]

theorem classOf_eq_iff : r.classOf ks = r.classOf ks' ↔
    reading r.dimensions ks = reading r.dimensions ks' :=
  compoundClass_eq_iff

/-- Each class is named after what it stands for. -/
theorem Named.classes_eq (h : r.Named) : r.classes.map (·.1) = r.keyings.map r.classOf := by
  have hoptions (x : Dimension × Nat) (hx : x ∈ r.dimensions.zipIdx) :
      x.1.options.map (·.className) =
        (List.range x.1.options.length).map fun j => r.classOf [⟨x.2, j⟩] := by
    apply List.ext_getElem?
    intro j
    rw [List.getElem?_map, List.getElem?_map]
    by_cases hj : j < x.1.options.length
    · have hc : Choice.option? ⟨x.2, j⟩ r.dimensions = some x.1.options[j] := by
        simp [Choice.option?, List.mem_zipIdx_iff_getElem?.1 hx]
      rw [List.getElem?_eq_getElem hj, List.getElem?_range hj]
      exact congrArg some (h.option _ _ hc)
    · simp [Nat.not_lt.1 hj]
  have hcompounds : r.compounds.map (·.className) = r.compounds.map fun c => r.classOf c.keys :=
    List.map_congr_left h.compound
  have hzip : r.dimensions.flatMap (fun d => d.options.map (·.className)) =
      r.dimensions.zipIdx.flatMap fun x => x.1.options.map (·.className) := by
    conv_lhs => rw [← List.zipIdx_map_fst 0 r.dimensions, List.flatMap_map]
  simp only [classes, keyings, optionKeyings, List.map_cons, List.map_append, List.map_flatMap,
    List.map_map, Function.comp_def, List.cons_append]
  rw [hcompounds, hzip, List.flatMap_congr hoptions, classOf_nil]

/-- Two classes stand for the same choices only if a compound has a single key. -/
theorem Named.nodup_keyings_iff (h : r.Named) :
    r.keyings.Nodup ↔ ∀ c ∈ r.compounds, c.keys.length ≠ 1 := by
  rw [keyings, List.cons_append, List.nodup_cons, List.nodup_append']
  constructor
  · rintro ⟨-, -, -, hdisjoint⟩ c hc hlength
    obtain ⟨k, hk⟩ := List.length_eq_one_iff.1 hlength
    have hoption := h.wellFormed.keys c hc k (by simp [hk])
    exact hdisjoint (mem_optionKeyings.2 ⟨k, hoption, rfl⟩) (List.mem_map.2 ⟨c, hc, hk⟩)
  · intro hlength
    refine ⟨?_, nodup_optionKeyings r, h.keys_distinct, List.disjoint_left.2 ?_⟩
    · rw [List.mem_append, mem_optionKeyings, List.mem_map]
      rintro (⟨c, -, hc⟩ | ⟨c, hc, hkeys⟩)
      · cases hc
      · exact h.keys_ne_nil c hc hkeys
    · intro ks hoption hcompound
      obtain ⟨k, -, rfl⟩ := mem_optionKeyings.1 hoption
      obtain ⟨c, hc, hkeys⟩ := List.mem_map.1 hcompound
      exact hlength c hc (by simp [hkeys])

theorem named_of_compile {definition : RecipeDefinition} {warnings : List Warning}
    (h : compile definition = .ok (r, warnings)) : r.Named := by
  obtain ⟨hvalid, rfl, -⟩ := compile_eq_ok_iff.1 h
  have hr := wellFormed_table hvalid
  have hoffers {keys : List (String × String)} (hkeys : definition.Admits keys) :
      ∀ p ∈ keys, Offers definition.table.dimensions p.1 p.2 :=
    fun p hp => offers_table_iff.2 (hkeys.declared p hp)
  refine ⟨hr, ?_, ?_, ?_, ?_⟩
  · intro c o hc
    obtain ⟨d, hd, ho⟩ := option?_eq_some_iff.1 hc
    have hname : o.className = definition.table.name ++ optionMark d.name o.name := by
      obtain ⟨stated, -, rfl⟩ := List.mem_map.1 (List.mem_of_getElem? hd)
      obtain ⟨p, -, rfl⟩ := List.mem_map.1 (List.mem_of_getElem? ho)
      rfl
    simp [hname, classOf, compoundClass, choiceMark, hd, ho]
  · intro c hc
    obtain ⟨stated, -, rfl⟩ := List.mem_map.1 hc
    rfl
  · intro c hc
    obtain ⟨stated, hstated, rfl⟩ := List.mem_map.1 hc
    have hadmits := hvalid.compounds stated (mem_of_mem_firstCompounds hstated)
    obtain ⟨p, hp⟩ := List.exists_mem_of_ne_nil _ hadmits.ne_nil
    obtain ⟨k, hk⟩ := exists_names hr.distinct (hoffers hadmits p hp)
    exact List.ne_nil_of_mem ((mem_choices hr.distinct hadmits.distinct).2 ⟨p, hp, hk⟩)
  · rw [RecipeDefinition.table, List.map_map, List.Nodup, List.pairwise_map]
    refine (pairwise_firstCompounds definition).imp_of_mem fun {c c'} hc hc' hperm => mt ?_ hperm
    have hadmits := hvalid.compounds c (mem_of_mem_firstCompounds hc)
    have hadmits' := hvalid.compounds c' (mem_of_mem_firstCompounds hc')
    exact (choices_eq_iff_perm hr.distinct (hoffers hadmits) hadmits.distinct (hoffers hadmits')
      hadmits'.distinct).1

/-! ## Names that read alike -/

theorem append_cons_eq_append_cons_iff {α : Type} {a : α} {s t s' t' : List α} :
    s ++ a :: t = s' ++ a :: t' ↔ (s = s' ∧ t = t') ∨
      ∃ x, (s' = s ++ a :: x ∧ t = x ++ a :: t') ∨ (s = s' ++ a :: x ∧ t' = x ++ a :: t) := by
  rw [List.append_eq_append_iff]
  constructor
  · rintro (⟨front, rfl, heq⟩ | ⟨front, rfl, heq⟩)
    · cases front with
      | nil => exact .inl ⟨by simp, (List.cons.inj heq).2⟩
      | cons b x =>
        obtain ⟨rfl, rfl⟩ := List.cons.inj heq
        exact .inr ⟨x, .inl ⟨rfl, rfl⟩⟩
    · cases front with
      | nil => exact .inl ⟨by simp, (List.cons.inj heq).2.symm⟩
      | cons b x =>
        obtain ⟨rfl, rfl⟩ := List.cons.inj heq
        exact .inr ⟨x, .inr ⟨rfl, rfl⟩⟩
  · rintro (⟨rfl, rfl⟩ | ⟨x, ⟨rfl, rfl⟩ | ⟨rfl, rfl⟩⟩)
    · exact .inl ⟨[], by simp, rfl⟩
    · exact .inl ⟨a :: x, rfl, rfl⟩
    · exact .inr ⟨a :: x, rfl, rfl⟩

/-- Two marks are alike if a dash inside a name is read as the dash between the names. -/
theorem optionMark_eq_iff {dimension option dimension' option' : String} :
    optionMark dimension option = optionMark dimension' option' ↔
      (dimension = dimension' ∧ option = option') ∨
      ∃ x, (dimension' = dimension ++ "-" ++ x ∧ option = x ++ "-" ++ option') ∨
        (dimension = dimension' ++ "-" ++ x ∧ option' = x ++ "-" ++ option) := by
  have hmark (d o : String) :
      (optionMark d o).toList = '-' :: '-' :: (d.toList ++ '-' :: o.toList) := by
    simp [optionMark]
  have hdashed (x y : String) : (x ++ "-" ++ y).toList = x.toList ++ '-' :: y.toList := by
    simp
  simp only [← String.toList_inj, hmark, hdashed, List.cons.injEq, true_and,
    append_cons_eq_append_cons_iff]
  refine or_congr Iff.rfl ⟨fun ⟨x, h⟩ => ⟨String.ofList x, ?_⟩, fun ⟨x, h⟩ => ⟨x.toList, h⟩⟩
  rwa [String.toList_ofList]

/-- Names in which a dash only stands inside of an option, between other characters or in front. -/
structure Plain (r : Recipe) : Prop where
  dimension : ∀ d ∈ r.dimensions, '-' ∉ d.name.toList
  option : ∀ d ∈ r.dimensions, ∀ o ∈ d.options, ∀ w ∈ (words o.name).tail, w ≠ []

theorem words_injective {name name' : String} (h : words name = words name') : name = name' := by
  have hlist := flatMap_words name
  rw [h, flatMap_words] at hlist
  exact String.toList_inj.1 (List.cons.inj hlist).2.symm

/-- Words that are not empty end at the first empty one. -/
theorem append_inj_of_ne_nil {ws ws' rest rest' : List (List Char)} (h : ∀ w ∈ ws, w ≠ [])
    (h' : ∀ w ∈ ws', w ≠ []) (hrest : ∀ w, rest.head? = some w → w = [])
    (hrest' : ∀ w, rest'.head? = some w → w = []) (heq : ws ++ rest = ws' ++ rest') :
    ws = ws' ∧ rest = rest' := by
  have htake {ws rest : List (List Char)} (h : ∀ w ∈ ws, w ≠ [])
      (hrest : ∀ w, rest.head? = some w → w = []) :
      (ws ++ rest).takeWhile (· ≠ []) = ws := by
    rw [List.takeWhile_append_of_pos (by simpa using h)]
    cases rest with
    | nil => simp
    | cons w rest => simp [hrest w rfl]
  obtain rfl : ws = ws' := by rw [← htake h hrest, heq, htake h' hrest']
  exact ⟨rfl, List.append_cancel_left heq⟩

theorem Plain.markWords_eq (h : r.Plain) {o : RecipeOption}
    (hc : c.option? r.dimensions = some o) : ∃ d w ws, r.dimensions[c.dimension]? = some d ∧
      d.options[c.option]? = some o ∧ words o.name = w :: ws ∧ (∀ w ∈ ws, w ≠ []) ∧
      markWords r.dimensions c = [] :: d.name.toList :: w :: ws := by
  obtain ⟨d, hd, ho⟩ := option?_eq_some_iff.1 hc
  have hmem := List.mem_of_getElem? hd
  have hdimension : words d.name = [d.name.toList] := by
    apply Text.fields_of_none
    intro a ha
    rw [beq_eq_false_iff_ne]
    rintro rfl
    exact h.dimension d hmem ha
  cases hwords : words o.name with
  | nil => exact absurd hwords (Text.fields_ne_nil _ _)
  | cons w ws =>
    have hoption := h.option d hmem o (List.mem_of_getElem? ho)
    rw [hwords] at hoption
    refine ⟨d, w, ws, hd, ho, rfl, hoption, ?_⟩
    simp [markWords, hd, ho, hdimension, hwords]

theorem Plain.head?_reading (h : r.Plain) (hks : ∀ k ∈ ks, (k.option? r.dimensions).isSome) :
    ∀ w, (reading r.dimensions ks).head? = some w → w = [] := by
  cases ks with
  | nil => nofun
  | cons k ks =>
    obtain ⟨o, ho⟩ := Option.isSome_iff_exists.1 (hks k List.mem_cons_self)
    obtain ⟨d, w, ws, -, -, -, -, hmark⟩ := h.markWords_eq ho
    simp [reading, hmark]

/-- Plain names tell all choices. -/
theorem Plain.reading_injective (h : r.Plain) (hdistinct : Distinct r.dimensions)
    (hks : ∀ k ∈ ks, (k.option? r.dimensions).isSome)
    (hks' : ∀ k ∈ ks', (k.option? r.dimensions).isSome)
    (heq : reading r.dimensions ks = reading r.dimensions ks') : ks = ks' := by
  induction ks generalizing ks' with
  | nil =>
    cases ks' with
    | nil => rfl
    | cons k' ks' =>
      obtain ⟨o', ho'⟩ := Option.isSome_iff_exists.1 (hks' k' List.mem_cons_self)
      obtain ⟨d', w', ws', -, -, -, -, hmark'⟩ := h.markWords_eq ho'
      simp [reading, hmark'] at heq
  | cons k ks ih =>
    obtain ⟨hk, hks⟩ := List.forall_mem_cons.1 hks
    obtain ⟨o, ho⟩ := Option.isSome_iff_exists.1 hk
    obtain ⟨d, w, ws, hd, hdo, hwords, hws, hmark⟩ := h.markWords_eq ho
    cases ks' with
    | nil => simp [reading, hmark] at heq
    | cons k' ks' =>
      obtain ⟨hk', hks'⟩ := List.forall_mem_cons.1 hks'
      obtain ⟨o', ho'⟩ := Option.isSome_iff_exists.1 hk'
      obtain ⟨d', w', ws', hd', hdo', hwords', hws', hmark'⟩ := h.markWords_eq ho'
      rw [reading, reading, List.flatMap_cons, List.flatMap_cons, hmark, hmark'] at heq
      simp only [List.cons_append, List.cons.injEq, true_and] at heq
      obtain ⟨hname, rfl, heq⟩ := heq
      obtain ⟨rfl, hrest⟩ := append_inj_of_ne_nil hws hws' (h.head?_reading hks)
        (h.head?_reading hks') heq
      have hoption : o.name = o'.name := words_injective (hwords.trans hwords'.symm)
      have hnames : Names r.dimensions d.name o.name k := ⟨d, o, hd, rfl, hdo, rfl⟩
      have hnames' : Names r.dimensions d.name o.name k' :=
        ⟨d', o', hd', (String.toList_inj.1 hname).symm, hdo', hoption.symm⟩
      rw [hnames.unique hdistinct hnames', ih hks hks' hrest]

/-! ## The classes of a component -/

theorem makes_nil (r : Recipe) (selection : List (String × String)) : r.Makes selection [] := nofun

theorem makes_singleton {o : RecipeOption} (ho : c.option? r.dimensions = some o) :
    r.Makes selection [c] ↔ (r.chosen selection)[c.dimension]? = some (some o) := by
  rw [Makes, List.forall_mem_singleton, ho]

/-- A chosen option has a position. -/
theorem exists_option?_of_mem_chosen {o : RecipeOption} (h : some o ∈ r.chosen selection) :
    ∃ c, c.option? r.dimensions = some o ∧ r.Makes selection [c] := by
  obtain ⟨i, hi⟩ := List.mem_iff_getElem?.1 h
  have hzip := hi
  rw [chosen, List.getElem?_zipWith_eq_some] at hzip
  obtain ⟨d, default, hd, -, hchosen⟩ := hzip
  rw [chosen?_eq_bind] at hchosen
  obtain ⟨j, -, hj⟩ := Option.bind_eq_some_iff.1 hchosen
  have hc : Choice.option? ⟨i, j⟩ r.dimensions = some o := option?_eq_some_iff.2 ⟨d, hd, hj⟩
  exact ⟨⟨i, j⟩, hc, (makes_singleton hc).2 hi⟩

/-- The classes of a component are those of the choices that are made. -/
theorem Named.mem_chosenClasses_iff (h : r.Named) {x : String} :
    x ∈ r.chosenClasses selection ↔ ∃ ks ∈ r.keyings, r.Makes selection ks ∧ r.classOf ks = x := by
  simp only [chosenClasses, List.cons_append, List.mem_cons, List.mem_append, List.mem_map,
    List.mem_filter, decide_eq_true_iff, List.mem_filterMap]
  constructor
  · rintro (rfl | ⟨c, ⟨hc, hmade⟩, rfl⟩ | ⟨choice, hchoice, hx⟩)
    · exact ⟨[], mem_keyings.2 (.inl rfl), makes_nil _ _, classOf_nil r⟩
    · exact ⟨c.keys, mem_keyings.2 (.inr (.inr ⟨c, hc, rfl⟩)), hmade, (h.compound c hc).symm⟩
    · obtain ⟨o, rfl, rfl⟩ := Option.map_eq_some_iff.1 hx
      obtain ⟨c, hc, hmade⟩ := exists_option?_of_mem_chosen hchoice
      exact ⟨[c], mem_keyings.2 (.inr (.inl ⟨c, by simp [hc], rfl⟩)), hmade, (h.option c o hc).symm⟩
  · rintro ⟨ks, hks, hmade, rfl⟩
    rcases mem_keyings.1 hks with rfl | ⟨c, hc, rfl⟩ | ⟨c, hc, rfl⟩
    · exact .inl (classOf_nil r)
    · obtain ⟨o, ho⟩ := Option.isSome_iff_exists.1 hc
      have hchosen := List.mem_of_getElem? ((makes_singleton ho).1 hmade)
      exact .inr (.inr ⟨some o, hchosen, congrArg some (h.option c o ho)⟩)
    · exact .inr (.inl ⟨c, ⟨hc, hmade⟩, h.compound c hc⟩)

/-- A component has the class of any choices that read like ones that are made. -/
theorem Named.classOf_mem_iff (h : r.Named) : r.classOf ks ∈ r.chosenClasses selection ↔
    ∃ ks' ∈ r.keyings, r.Makes selection ks' ∧
      reading r.dimensions ks' = reading r.dimensions ks := by
  simp only [h.mem_chosenClasses_iff, classOf_eq_iff]

/-! ## Distinct classes -/

theorem Named.isSome_option? (h : r.Named) (hks : ks ∈ r.keyings) :
    ∀ k ∈ ks, (k.option? r.dimensions).isSome := by
  rcases mem_keyings.1 hks with rfl | ⟨c, hc, rfl⟩ | ⟨c, hc, rfl⟩
  · nofun
  · rwa [List.forall_mem_singleton]
  · exact h.wellFormed.keys c hc

/-- No class has the name of the base. -/
theorem Named.classOf_eq_name_iff (h : r.Named) (hks : ks ∈ r.keyings) :
    r.classOf ks = r.name ↔ ks = [] := by
  rw [← classOf_nil, classOf_eq_iff]
  refine ⟨fun heq => ?_, congrArg _⟩
  cases ks with
  | nil => rfl
  | cons k ks =>
    obtain ⟨o, ho⟩ := Option.isSome_iff_exists.1 (h.isSome_option? hks k List.mem_cons_self)
    obtain ⟨d, hd, -⟩ := option?_eq_some_iff.1 ho
    simp [reading, markWords, hd] at heq

theorem classOf_of_names {dimension option : String} (h : Names r.dimensions dimension option c) :
    r.classOf [c] = r.name ++ optionMark dimension option := by
  obtain ⟨d, o, hd, rfl, ho, rfl⟩ := h
  simp [classOf, compoundClass, choiceMark, hd, ho]

theorem Named.nodup_classes_iff (h : r.Named) : (r.classes.map (·.1)).Nodup ↔
    (∀ c ∈ r.compounds, c.keys.length ≠ 1) ∧ ∀ ks ∈ r.keyings, ∀ ks' ∈ r.keyings,
      reading r.dimensions ks = reading r.dimensions ks' → ks = ks' := by
  rw [h.classes_eq, ← h.nodup_keyings_iff]
  simp only [← classOf_eq_iff]
  refine ⟨fun hnodup => ?_, fun ⟨hnodup, hinj⟩ => (List.nodup_map_iff_inj_on hnodup).2 hinj⟩
  exact ⟨hnodup.of_map _, (List.nodup_map_iff_inj_on (hnodup.of_map _)).1 hnodup⟩

theorem Named.nodup_classes_of_plain (h : r.Named) (hplain : r.Plain)
    (hcompounds : ∀ c ∈ r.compounds, c.keys.length ≠ 1) : (r.classes.map (·.1)).Nodup := by
  refine h.nodup_classes_iff.2 ⟨hcompounds, fun ks hks ks' hks' => ?_⟩
  exact hplain.reading_injective h.wellFormed.distinct (h.isSome_option? hks)
    (h.isSome_option? hks')

/-- The main result. The classes of a recipe are named after the choices that they stand for, and
two of them share a name if these read alike. So no class has the name of the base; two options
share a class if a dash inside one name is read as the dash between them; and all classes are
distinct if and only if no compound has a single key and no two classes read alike, which plain
names ensure. A component has the classes of the choices that are made, and with them each class
that shares its name with one of these. -/
theorem classNames_of_compile {definition : RecipeDefinition} {warnings : List Warning}
    (h : compile definition = .ok (r, warnings)) :
    r.classes.map (·.1) = r.keyings.map r.classOf ∧
    (∀ ks ks', r.classOf ks = r.classOf ks' ↔
      reading r.dimensions ks = reading r.dimensions ks') ∧
    (∀ ks ∈ r.keyings, r.classOf ks = r.name ↔ ks = []) ∧
    (∀ dimension option c dimension' option' c', Names r.dimensions dimension option c →
      Names r.dimensions dimension' option' c' →
      (r.classOf [c] = r.classOf [c'] ↔ (dimension = dimension' ∧ option = option') ∨
        ∃ x, (dimension' = dimension ++ "-" ++ x ∧ option = x ++ "-" ++ option') ∨
          (dimension = dimension' ++ "-" ++ x ∧ option' = x ++ "-" ++ option))) ∧
    ((r.classes.map (·.1)).Nodup ↔ (∀ c ∈ r.compounds, c.keys.length ≠ 1) ∧
      ∀ ks ∈ r.keyings, ∀ ks' ∈ r.keyings,
        reading r.dimensions ks = reading r.dimensions ks' → ks = ks') ∧
    (r.Plain → (∀ c ∈ r.compounds, c.keys.length ≠ 1) → (r.classes.map (·.1)).Nodup) ∧
    ∀ selection, (∀ p ∈ selection, Offers r.dimensions p.1 p.2) →
      ∃ classes, r.resolve selection = .ok classes ∧
        (∀ ks, r.classOf ks ∈ classes ↔ ∃ ks' ∈ r.keyings, r.Makes selection ks' ∧
          reading r.dimensions ks' = reading r.dimensions ks) ∧
        ((r.classes.map (·.1)).Nodup →
          ∀ ks ∈ r.keyings, r.classOf ks ∈ classes ↔ r.Makes selection ks) := by
  have hr := named_of_compile h
  refine ⟨hr.classes_eq, fun ks ks' => classOf_eq_iff, fun ks => hr.classOf_eq_name_iff,
    fun dimension option c dimension' option' c' hc hc' => ?_, hr.nodup_classes_iff,
    hr.nodup_classes_of_plain, fun selection hselection => ?_⟩
  · rw [classOf_of_names hc, classOf_of_names hc', String.append_right_inj]
    exact optionMark_eq_iff
  · refine ⟨_, resolve_of_offers hr.wellFormed hselection, fun ks => hr.classOf_mem_iff,
      fun hnodup ks hks => hr.classOf_mem_iff.trans ⟨?_, fun hmade => ⟨ks, hks, hmade, rfl⟩⟩⟩
    rintro ⟨ks', hks', hmade, hread⟩
    rwa [← (hr.nodup_classes_iff.1 hnodup).2 ks' hks' ks hks hread]

/-- A card with dashes in the name of a dimension and in the name of an option. -/
def cardDefinition : RecipeDefinition where
  name := "card"
  base := .empty
  dimensions := [⟨"size", [("x-lg", .empty)]⟩, ⟨"size-x", [("lg", .empty)]⟩]
  compounds := []
  defaults := []

def card : Recipe where
  name := "card"
  base := .empty
  dimensions := [⟨"size", [⟨"x-lg", "card--size-x-lg", .empty⟩]⟩,
    ⟨"size-x", [⟨"lg", "card--size-x-lg", .empty⟩]⟩]
  compounds := []
  defaults := [none, none]

theorem compile_card : compile cardDefinition = .ok (card, []) :=
  compile_eq_ok_iff.2 ⟨by decide, by decide, by decide⟩

/-- A large card has the class of an extra large one. -/
theorem classNames_of_compile_card :
    compile cardDefinition = .ok (card, []) ∧ ¬ (card.classes.map (·.1)).Nodup ∧
    card.Makes [("size", "x-lg")] [⟨0, 0⟩] ∧ ¬ card.Makes [("size", "x-lg")] [⟨1, 0⟩] ∧
    ∃ classes, card.resolve [("size", "x-lg")] = .ok classes ∧ card.classOf [⟨1, 0⟩] ∈ classes := by
  obtain ⟨-, hclassOf, -, hoptions, hnodup, -, hresolve⟩ := classNames_of_compile compile_card
  have hshared : card.classOf [⟨0, 0⟩] = card.classOf [⟨1, 0⟩] :=
    (hoptions "size" "x-lg" _ "size-x" "lg" _ ⟨_, _, rfl, rfl, rfl, rfl⟩
      ⟨_, _, rfl, rfl, rfl, rfl⟩).2 (.inr ⟨"x", .inl ⟨by decide, by decide⟩⟩)
  have hread := (hclassOf _ _).1 hshared
  have hmade : card.Makes [("size", "x-lg")] [⟨0, 0⟩] := List.forall_mem_singleton.2 (by decide)
  have hother : ¬ card.Makes [("size", "x-lg")] [⟨1, 0⟩] :=
    mt List.forall_mem_singleton.1 (by decide)
  obtain ⟨classes, hclasses, hmem, -⟩ := hresolve [("size", "x-lg")] (by decide)
  refine ⟨compile_card, fun hdistinct => ?_, hmade, hother, classes, hclasses,
    (hmem _).2 ⟨[⟨0, 0⟩], by decide, hmade, hread⟩⟩
  have hsame := (hnodup.1 hdistinct).2 [⟨0, 0⟩] (by decide) [⟨1, 0⟩] (by decide) hread
  cases hsame

end AtomicCss.Recipe
