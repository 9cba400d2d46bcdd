import AtomicCss.Proofs.Document.Outline
import AtomicCss.Proofs.Engine.Places

/-! # The two emit modes

A config that works at the root is run in both modes. Then both engines know the same variables and
the same generators, and their documents have the same outline; in eager mode all classes stand in
the slots, on demand there is none yet (`Mirrors.run`). -/

namespace AtomicCss

namespace Engine

/-! ## Configs that work at the root -/

/-- The calls that work at the root and leave mode and classes alone. -/
def ConfigStep.AtRoot : ConfigStep → Prop
  | .declareIn scope _ _ => scope = Document.rootId
  | .selector parent _ _ => parent = Document.rootId
  | .selectorCss parent _ _ => parent = Document.rootId
  | .raw parent _ => parent = Document.rootId
  | .declare .. | .keyframes _ | .addUtility _ | .useUtility .. | .addRecipe _ => True
  | .setMode _ | .media .. | .generate .. | .addExport .. | .clearWarnings => False

/-- The text of the selector that a config names itself. -/
def ConfigStep.selectorText? : ConfigStep → Option String
  | .selector _ text _ => some (Text.trimmed text)
  | .selectorCss _ text _ => some (Text.trimmed text)
  | _ => none

/-- The declarations that a step uses utilities for, each with the number of the utility. -/
def stylesOf (e : Engine) : ConfigStep → List (GeneratorId × Block)
  | .useUtility id config =>
    (e.utility? id).elim [] fun u =>
      (config.getD u.defaults).entries.map fun (suffix, value) => (id, u.style suffix value)
  | _ => []

/-- The declarations that the steps of a config use utilities for. -/
def stylesIn (e : Engine) : List ConfigStep → List (GeneratorId × Block)
  | [] => []
  | s :: steps => e.stylesOf s ++ (e.step s).stylesIn steps

variable {e l e' l' : Engine} {d : Document} {items : List Item} {U : Set String} {S : Set Emission}
  {props : GeneratorId → List String} {x : Emission} {id : Nat}

/-! ## Classes apart from other selectors -/

/-- The classes differ in their selectors, from each other and from the given texts. -/
structure Apart (U : Set String) (e : Engine) : Prop where
  distinct : ∀ x ∈ e.emissions, ∀ y ∈ e.emissions, x.text = y.text → x = y
  free : ∀ x ∈ e.emissions, x.text ∉ U

theorem text_congr {y : Emission} (h : y.className = x.className) : y.text = x.text :=
  congrArg (fun c => Text.trimmed (Css.classSelector c)) h

namespace Apart

theorem of_retains (h : e.Sound) (hr : e.Retains e') (ha : e'.Apart U) : e.Apart U where
  distinct x hx y hy ht := by
    refine h.eq_of_retains hr hx hy ?_
    intro x' hx' y' hy' hc hc'
    apply ha.distinct x' hx' y' hy'
    rw [text_congr hc, text_congr hc', ht]
  free x hx := by
    obtain ⟨x', hx', -, -, hc⟩ := hr x hx
    rw [← text_congr hc]
    exact ha.free x' hx'

/-- A class that is not emitted yet has no selector. -/
theorem findSelector?_eq_none (ha : e.Apart U) (hd : d.Realizes items S) (hU : Item.Within U items)
    (hS : S ⊆ e.emissions) (hx : x ∈ e.emissions) (hnew : x ∉ S) :
    d.findSelector? Document.rootId x.text = none := by
  rw [Option.eq_none_iff_forall_ne_some]
  intro id hfind
  have htrim : Text.trimmed x.text = x.text := Text.trimmed_trimmed _
  obtain ⟨item, hitem, ht⟩ := by
    apply hd.exists_of_findSelector? _ hfind
    intro y hy hyx
    rw [htrim] at hyx
    exact hnew (ha.distinct y (hS hy) x hx hyx ▸ hy)
  rw [htrim] at ht
  exact ha.free x hx (hU item hitem _ ht)

/-- Emitting new classes. -/
theorem absorbAll (ha : e.Apart U) (h : e.Sound) (hd : e.document.Realizes items S)
    (hU : Item.Within U items) (hS : S ⊆ e.emissions) {xs : List Emission}
    (hxs : ∀ x ∈ xs, x ∈ e.emissions) (hnew : ∀ x ∈ xs, x ∉ S) :
    (e.document.absorbAll xs).Realizes items (S ∪ {x | x ∈ xs}) := by
  have hP := h.prepared_of_texts ha.distinct
  have hg := (hP.grown.absorbAll hP (Set.empty_subset _) hxs).2
  rw [Set.empty_union] at hg
  apply hd.grown hg
  intro x hx
  exact ha.findSelector?_eq_none hd hU hS (hxs x hx) (hnew x hx)

end Apart

/-! ## Uniform utilities -/

/-- The entries of a utility set the properties that `props` says. -/
def Uniform (props : GeneratorId → List String) (e : Engine) : Prop :=
  ∀ {id : Nat} {u table slot}, e.generators[id]? = some (.utility u table slot) →
    ∀ p ∈ table.entries, (u.style p.1 p.2).properties = props id

namespace Uniform

theorem of_generators (h : Uniform props e) (he' : e'.generators = e.generators) :
    Uniform props e' := by
  intro id u table slot hid
  exact h (he' ▸ hid)

/-- A new generator has no entries yet. -/
theorem append (h : Uniform props e) {g : Generator}
    (hg : ∀ {u table slot}, g = .utility u table slot → table.entries = [])
    (he' : e'.generators = e.generators ++ [g]) : Uniform props e' := by
  intro id u table slot hid p hp
  rw [he', List.getElem?_append] at hid
  split at hid
  · exact h hid p hp
  · obtain rfl := List.mem_singleton.1 (List.mem_of_getElem? hid)
    rw [hg rfl] at hp
    cases hp

/-- An entry is set to a block with the same properties. -/
theorem use (h : Uniform props e) {u : Utility} {table : ValueTable} {slot : SlotId}
    (hg : e.generators[id]? = some (.utility u table slot)) {suffix : String} {value : Value}
    (hp : (u.style suffix value).properties = props id)
    (he' : e'.generators = e.generators.set id (.utility u (table.insert suffix value) slot)) :
    Uniform props e' := by
  intro i v t s hi p hpt
  rw [he', List.getElem?_set] at hi
  split at hi
  · rename_i hid
    subst hid
    rw [if_pos (List.getElem?_eq_some_iff.1 hg).1, Option.some.injEq, Generator.utility.injEq] at hi
    obtain ⟨rfl, rfl, rfl⟩ := hi
    rcases ValueTable.mem_of_mem_put hpt with rfl | hpt
    · exact hp
    · exact h hg p hpt
  · exact h hi p hpt

end Uniform

/-! ## One config in two modes -/

/-- Engines in which the same config was run, `e` in eager mode and `l` on demand. Selectors have
texts from `U`, and the entries of a utility set the properties that `props` says. -/
structure Mirrors (U : Set String) (props : GeneratorId → List String) (e l : Engine) : Prop where
  eager : e.mode = .eager
  onDemand : l.mode = .onDemand
  name : l.name = e.name
  vars : l.vars = e.vars
  generators : l.generators = e.generators
  index : l.index = e.index
  scopes : ∀ v ∈ e.vars.entries, v.scope = Document.rootId
  uniform : ∀ {id : Nat} {u table slot}, e.generators[id]? = some (.utility u table slot) →
    ∀ p ∈ table.entries, (u.style p.1 p.2).properties = props id
  documents : ∃ items, Item.Within U items ∧ l.document.Realizes items ∅ ∧
    e.document.Realizes items e.emissions

theorem mirrors_new (name : String) : Mirrors U props (new name .eager) (new name .onDemand) where
  eager := rfl
  onDemand := rfl
  name := rfl
  vars := rfl
  generators := rfl
  index := rfl
  scopes v hv := by cases hv
  uniform hg := by cases hg
  documents := by
    refine ⟨[], by simp [Item.Within], Document.realizes_empty, ?_⟩
    rw [show (new name .eager).emissions = ∅ by ext; simp [emissions, new]]
    exact Document.realizes_empty

namespace Mirrors

theorem declare (h : Mirrors U props e l) (name : String) (value : Value) : Mirrors U props
    { e with vars := (e.vars.declare Document.rootId name value).1 }
    { l with vars := (l.vars.declare Document.rootId name value).1 } where
  eager := h.eager
  onDemand := h.onDemand
  name := h.name
  vars := by rw [h.vars]
  generators := h.generators
  index := h.index
  scopes v hv := (Variables.scope_of_mem_declare hv).elim id (h.scopes v)
  uniform := h.uniform
  documents := h.documents

/-- Calls of the document that lead to the same outline. -/
theorem withDocument (h : Mirrors U props e l) {d d' : Document} (hU : Item.Within U items)
    (hd : d.Realizes items e.emissions) (hd' : d'.Realizes items ∅) (ws ws' : List Warning) :
    Mirrors U props { e with document := d, notices := ws } { l with document := d', notices := ws' } where
  eager := h.eager
  onDemand := h.onDemand
  name := h.name
  vars := h.vars
  generators := h.generators
  index := h.index
  scopes := h.scopes
  uniform := h.uniform
  documents := ⟨items, hU, hd', hd⟩

/-- A new generator that has the same slot in both modes. -/
theorem register (h : Mirrors U props e l) {g : Generator} {d d' : Document}
    (hg : ∀ {u table slot}, g = .utility u table slot → table.entries = [])
    (hU : Item.Within U items) (hd : d.Realizes items (e.emissions ∪ {x | x ∈ g.emissions}))
    (hd' : d'.Realizes items ∅) {index index' : List (String × GeneratorId)} (hi : index' = index)
    (ws ws' : List Warning) : Mirrors U props
      { e with document := d, generators := e.generators ++ [g], index := index, notices := ws }
      { l with document := d', generators := l.generators ++ [g], index := index', notices := ws' } where
  eager := h.eager
  onDemand := h.onDemand
  name := h.name
  vars := h.vars
  generators := by rw [h.generators]
  index := hi
  scopes := h.scopes
  uniform hid := by
    have huniform : Uniform props { e with generators := e.generators ++ [g] } :=
      Uniform.append h.uniform hg rfl
    exact huniform hid
  documents := by
    have hS {e' : Engine} (he' : e'.generators = e.generators ++ [g]) :
        e'.emissions = e.emissions ∪ {x | x ∈ g.emissions} := by
      ext x
      exact mem_emissions_append he'
    refine ⟨items, hU, hd', ?_⟩
    rw [hS rfl]
    exact hd

/-! ### Uses -/

theorem used_eager (h : Mirrors U props e l) (d : Document) (xs : List Emission) :
    d.used e.mode xs = d.absorbAll xs := by
  rw [h.eager]
  rfl

theorem used_onDemand (h : Mirrors U props e l) (d : Document) (xs : List Emission) :
    d.used l.mode xs = d := by
  rw [h.onDemand]
  rfl

/-- The eager document after one use. The class takes its place, which is free or has a class of the
same name with the same properties. -/
theorem realizes_use (h : Mirrors U props e l) (he : e.Sound) {u : Utility} {table : ValueTable}
    {slot : SlotId} (hg : e.generators[id]? = some (.utility u table slot)) {suffix : String}
    {value : Value} (hp : (u.style suffix value).properties = props id)
    (hs : e'.Sound) (hd : e'.document = e.document)
    (hg' : e'.generators = e.generators.set id (.utility u (table.insert suffix value) slot))
    (ha : e'.Apart U) (hU : Item.Within U items) (hr : e.document.Realizes items e.emissions) :
    (e.document.absorbAll [u.emission table slot suffix value]).Realizes items e'.emissions := by
  let x := u.emission table slot suffix value
  have hx : x ∈ e'.emissions := (he.mem_emissions_use hg hg').2 (.inl rfl)
  by_cases hold : ∃ y ∈ e.emissions, y.slot = slot ∧ y.ordinal = table.ordinal suffix
  · obtain ⟨y, hy, hys, hyo⟩ := hold
    obtain ⟨p, hp', -, hc, hb⟩ := he.exists_of_place hg hy hys hyo
    have ht : y.text = x.text := text_congr hc
    refine hr.replace (x := x) ?admits hy hys hyo ht ?merge ?items ?texts ?classes
    case admits =>
      rw [← hd]
      exact (hs.prepared_of_texts ha.distinct).admits x hx
    case merge =>
      apply Block.merge_of_properties_eq
      rw [hb, h.uniform hg p hp']
      exact hp.symm
    case items =>
      intro item hitem htext
      exact ha.free x hx (hU item hitem _ htext)
    case texts =>
      intro z hz hzx
      exact (ha.of_retains he (he.retains_use hg hg')).distinct z hz y hy (hzx.trans ht.symm)
    case classes =>
      intro z
      exact he.mem_emissions_use_of_mem hg hg' hy hys hyo
  · have hfree : ∀ y ∈ e.emissions, ¬(y.slot = slot ∧ y.ordinal = table.ordinal suffix) :=
      fun y hy hplace => hold ⟨y, hy, hplace⟩
    have hall := he.emissions_use_of_free hg hg' hfree
    rw [hall, ← hd]
    rw [← hd] at hr
    apply ha.absorbAll hs hr hU
    · rw [hall]
      exact Set.subset_union_left
    · intro y hy
      rw [List.mem_singleton.1 hy]
      exact hx
    · intro y hy hmem
      rw [List.mem_singleton.1 hy] at hmem
      exact hfree x hmem ⟨rfl, rfl⟩

theorem useEntry (h : Mirrors U props e l) (he : e.Sound) {u : Utility} {table : ValueTable}
    {slot : SlotId} (hg : e.generators[id]? = some (.utility u table slot)) {suffix : String}
    {value : Value} (hp : (u.style suffix value).properties = props id)
    (ha : Apart U { e with
      document := e.document.absorbAll [u.emission table slot suffix value]
      generators := e.generators.set id (.utility u (table.insert suffix value) slot)
      index := indexClass e.index (u.classOf suffix) id }) :
    Mirrors U props
      { e with
        document := e.document.absorbAll [u.emission table slot suffix value]
        generators := e.generators.set id (.utility u (table.insert suffix value) slot)
        index := indexClass e.index (u.classOf suffix) id }
      { l with
        generators := l.generators.set id (.utility u (table.insert suffix value) slot)
        index := indexClass l.index (u.classOf suffix) id } where
  eager := h.eager
  onDemand := h.onDemand
  name := h.name
  vars := h.vars
  generators := by rw [h.generators]
  index := by rw [h.index]
  scopes := h.scopes
  uniform hi := by
    have huniform : Uniform props { e with
        generators := e.generators.set id (.utility u (table.insert suffix value) slot) } :=
      Uniform.use h.uniform hg hp rfl
    exact huniform hi
  documents := by
    obtain ⟨items, hU, hl, hr⟩ := h.documents
    have huse := h.realizes_use he hg hp (he.extend hg suffix value) rfl rfl
      ⟨ha.distinct, ha.free⟩ hU hr
    exact ⟨items, hU, hl, huse⟩

theorem useEntries (h : Mirrors U props e l) (he : e.Sound) (hl : l.Sound) {u : Utility}
    (hu : e.utility? id = some u) {entries : List (String × Value)}
    (hp : ∀ p ∈ entries, (u.style p.1 p.2).properties = props id) {bindings : List Binding}
    (hs : e.useEntries id entries = .ok (e', bindings)) (ha : e'.Apart U) :
    ∃ l' bindings', l.useEntries id entries = .ok (l', bindings') ∧ Mirrors U props e' l' := by
  induction entries generalizing e l bindings with
  | nil =>
    obtain ⟨rfl, -⟩ := Prod.mk.inj (Except.ok.inj hs)
    exact ⟨l, [], rfl, h⟩
  | cons entry entries ih =>
    obtain ⟨table, slot, e₁, rest, hg, rfl, hsound, hu₁, hrest⟩ := he.useEntries_cons hu hs
    have hg' : l.generators[id]? = some (.utility u table slot) := by rw [h.generators, hg]
    obtain ⟨binding', hok'⟩ := hl.useEntry_eq hg' entry.1 entry.2
    have hsound' := hl.useEntry hg' hok'
    -- the class is emitted in eager mode only
    rw [h.used_eager] at hrest hsound hu₁
    rw [h.used_onDemand] at hok' hsound'
    have hmirrors := h.useEntry he hg (hp entry List.mem_cons_self)
      (ha.of_retains hsound (hsound.retains_useEntries hrest))
    obtain ⟨l', rest', hl', hm⟩ :=
      ih hmirrors hsound hsound' hu₁ (fun p hpe => hp p (List.mem_cons_of_mem _ hpe)) hrest
    refine ⟨l', binding' :: rest', ?_, hm⟩
    exact useEntries_cons_eq_ok_iff.2 ⟨u, table, slot, hg', _, binding', hok', rest', hl', rfl⟩

/-! ### Steps -/

theorem documents_selector (h : Mirrors U props e l) (ha : e.Apart U) {text : String}
    (ht : Text.trimmed text ∈ U) (block : Block) : ∃ d i d' i' items,
      e.document.selector Document.rootId text block = .ok (d, i) ∧
      l.document.selector Document.rootId text block = .ok (d', i') ∧
      Item.Within U items ∧ d.Realizes items e.emissions ∧ d'.Realizes items ∅ := by
  obtain ⟨items, hU, hl, he⟩ := h.documents
  obtain ⟨d, i, hd, hr⟩ := by
    refine he.selector text block ?_
    intro x hx heq
    exact ha.free x hx (heq ▸ ht)
  obtain ⟨d', i', hd', hr'⟩ := hl.selector text block (by simp)
  exact ⟨d, i, d', i', _, hd, hd', hU.put ht block, hr, hr'⟩

theorem addUtility (h : Mirrors U props e l) (he : e.Sound) (hl : l.Sound) (u : Utility) :
    Mirrors U props (e.step (.addUtility u)) (l.step (.addUtility u)) := by
  obtain ⟨items, hU, hrl, hre⟩ := h.documents
  have hname : l.hasGenerator u.name = e.hasGenerator u.name := by
    rw [hasGenerator, hasGenerator, h.generators]
  rw [he.step_addUtility, hl.step_addUtility, hname]
  split
  · exact h
  · rw [hrl.slots, ← hre.slots]
    refine h.register ?_ (hU.append rfl) ?_ hrl.reserved h.index _ _
    · intro v table slot hv
      obtain ⟨-, rfl, -⟩ := Generator.utility.inj hv
      rfl
    · have hnone : {x | x ∈ (Generator.utility u ∅ e.document.slots.length).emissions} = ∅ := by
        ext x
        simp [Generator.emissions, Generator.classes, EmptyCollection.emptyCollection,
          ValueTable.empty, Emission.listFrom]
      rw [hnone, Set.union_empty]
      exact hre.reserved

/-- Emitting all classes of the youngest generator. -/
theorem realizes_register (he : e'.Sound) {g : Generator}
    (hg : e'.generators = e.generators ++ [g]) (ha : e'.Apart U)
    (hr : e'.document.Realizes items e.emissions) (hU : Item.Within U items) :
    (e'.document.absorbAll g.emissions).Realizes items (e.emissions ∪ {x | x ∈ g.emissions}) := by
  refine ha.absorbAll he hr hU ?_ ?_ ?_
  · intro x hx
    exact (mem_emissions_append hg).2 (.inl hx)
  · intro x hx
    exact (mem_emissions_append hg).2 (.inr hx)
  · rintro x hx ⟨g', hg', hx'⟩
    -- the slot of the new generator is its own
    have hslots := he.slots
    rw [hg, List.map_append, List.nodup_append'] at hslots
    apply hslots.2.2 (List.mem_map_of_mem hg')
    rw [← (Generator.mem_emissions.1 hx').1, (Generator.mem_emissions.1 hx).1]
    exact List.mem_singleton_self _

theorem addRecipe (h : Mirrors U props e l) (he : e.Sound) (hl : l.Sound) (r : RecipeDefinition)
    (ha : (e.step (.addRecipe r)).Apart U) :
    Mirrors U props (e.step (.addRecipe r)) (l.step (.addRecipe r)) := by
  obtain ⟨items, hU, hrl, hre⟩ := h.documents
  rw [he.step_addRecipe] at ha ⊢
  rw [hl.step_addRecipe]
  cases hc : Recipe.compile r with
  | error cause => exact h
  | ok compiled =>
    obtain ⟨recipe, warnings⟩ := compiled
    have hname : l.hasGenerator recipe.name = e.hasGenerator recipe.name := by
      rw [hasGenerator, hasGenerator, h.generators]
    simp only [hc, hname] at ha ⊢
    split
    · exact h
    · rename_i ht
      rw [if_neg ht, h.used_eager] at ha
      rw [hrl.slots, ← hre.slots, h.used_onDemand, h.used_eager]
      have hr := realizes_register (he.register_recipe recipe) rfl ⟨ha.distinct, ha.free⟩
        hre.reserved (hU.append rfl)
      refine h.register ?_ (hU.append rfl) hr hrl.reserved ?_ _ _
      · intro u table slot hg
        cases hg
      · rw [h.index, h.generators]

theorem useUtility (h : Mirrors U props e l) (he : e.Sound) (hl : l.Sound)
    {config : Option ValueTable}
    (hp : ∀ q ∈ e.stylesOf (.useUtility id config), q.2.properties = props q.1)
    (ha : (e.step (.useUtility id config)).Apart U) :
    Mirrors U props (e.step (.useUtility id config)) (l.step (.useUtility id config)) := by
  have hutility : l.utility? id = e.utility? id := by rw [utility?, utility?, h.generators]
  cases hu : e.utility? id with
  | none =>
    rw [step_useUtility_none hu, step_useUtility_none (hutility.trans hu)]
    exact h
  | some u =>
    obtain ⟨e', bindings, hs⟩ := he.useEntries_ok hu (config.getD u.defaults).entries
    rw [step_useUtility hu hs] at ha ⊢
    obtain ⟨l', bindings', hs', hm⟩ := by
      refine h.useEntries he hl hu ?_ hs ha
      intro p hpe
      apply hp (id, u.style p.1 p.2)
      rw [stylesOf, hu]
      exact List.mem_map_of_mem hpe
    rw [step_useUtility (hutility.trans hu) hs']
    exact hm

/-- **One step** does the same in both modes, but for when it emits classes. -/
theorem step (h : Mirrors U props e l) (he : e.Sound) (hl : l.Sound) {s : ConfigStep}
    (hs : s.AtRoot) (ht : ∀ t, s.selectorText? = some t → t ∈ U)
    (hp : ∀ q ∈ e.stylesOf s, q.2.properties = props q.1) (ha : (e.step s).Apart U) :
    Mirrors U props (e.step s) (l.step s) := by
  have ha₀ := ha.of_retains he (he.retains_step s)
  cases s with
  | declare name value => exact h.declare name value
  | declareIn scope name value =>
    obtain rfl : scope = Document.rootId := hs
    rw [step_declareIn he.document.contains_root, step_declareIn hl.document.contains_root]
    exact h.declare name value
  | selector parent text block =>
    obtain rfl : parent = Document.rootId := hs
    obtain ⟨d, i, d', i', items, hd, hd', hU, hr, hr'⟩ := h.documents_selector ha₀ (ht _ rfl) block
    rw [step_selector hd, step_selector hd']
    exact h.withDocument hU hr hr' e.notices l.notices
  | selectorCss parent text css =>
    obtain rfl : parent = Document.rootId := hs
    obtain ⟨d, i, d', i', items, hd, hd', hU, hr, hr'⟩ :=
      h.documents_selector ha₀ (ht _ rfl) (Css.parseDeclarations css).1
    rw [step_selectorCss hd, step_selectorCss hd']
    exact h.withDocument hU hr hr' _ _
  | keyframes name =>
    obtain ⟨items, hU, hrl, hre⟩ := h.documents
    obtain ⟨d, i, hd, hr⟩ := hre.keyframes name
    obtain ⟨d', i', hd', hr'⟩ := hrl.keyframes name
    rw [step_keyframes hd, step_keyframes hd']
    exact h.withDocument (hU.append rfl) hr hr' e.notices l.notices
  | raw parent css =>
    obtain rfl : parent = Document.rootId := hs
    obtain ⟨items, hU, hrl, hre⟩ := h.documents
    obtain ⟨d, hd, hr⟩ := hre.raw css
    obtain ⟨d', hd', hr'⟩ := hrl.raw css
    rw [step_raw hd, step_raw hd']
    exact h.withDocument (hU.append rfl) hr hr' e.notices l.notices
  | addUtility u => exact h.addUtility he hl u
  | useUtility id config => exact h.useUtility he hl hp ha
  | addRecipe r => exact h.addRecipe he hl r ha
  | setMode mode => cases hs
  | media parent query => cases hs
  | generate id token => cases hs
  | addExport name x => cases hs
  | clearWarnings => cases hs

/-- **A whole config** does. -/
theorem run (h : Mirrors U props e l) (he : e.Sound) (hl : l.Sound) {steps : List ConfigStep}
    (hs : ∀ s ∈ steps, s.AtRoot) (ht : ∀ t ∈ steps.filterMap ConfigStep.selectorText?, t ∈ U)
    (hp : ∀ q ∈ e.stylesIn steps, q.2.properties = props q.1) (ha : (e.run steps).Apart U) :
    Mirrors U props (e.run steps) (l.run steps) := by
  induction steps generalizing e l with
  | nil => exact h
  | cons s steps ih =>
    have hstep : Mirrors U props (e.step s) (l.step s) := by
      refine h.step he hl (hs s List.mem_cons_self) ?_ ?_ ?_
      · intro t hst
        exact ht t (List.mem_filterMap.2 ⟨s, List.mem_cons_self, hst⟩)
      · intro q hq
        exact hp q (List.mem_append_left _ hq)
      · exact ha.of_retains (he.step s) ((he.step s).retains_run steps)
    refine ih hstep (he.step s) (hl.step s) ?_ ?_ ?_ ha
    · intro x hx
      exact hs x (List.mem_cons_of_mem _ hx)
    · intro t hmem
      obtain ⟨x, hx, hxt⟩ := List.mem_filterMap.1 hmem
      exact ht t (List.mem_filterMap.2 ⟨x, List.mem_cons_of_mem _ hx, hxt⟩)
    · intro q hq
      exact hp q (List.mem_append_right _ hq)

end Mirrors

end Engine

end AtomicCss
