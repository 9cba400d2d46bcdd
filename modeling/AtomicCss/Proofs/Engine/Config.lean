import AtomicCss.Proofs.Engine.Sound
import Mathlib.Data.List.Nodup

/-! # Config steps

Whatever a config does, and in whatever order, its engine is sound (`Reached.sound`). A step that
fails leaves the engine as it is, except that the malformed declarations of `selectorCss` are
reported. What a step may make of an engine is said once: by `step_addUtility`, `step_useUtility` and
`step_addRecipe` for those that teach it classes, and by `turns_step` for the others. -/

namespace AtomicCss

/-! ## Tables and the index -/

namespace ValueTable

/-- A suffix that is set stands at its ordinal. -/
theorem getElem?_put (suffix : String) (value : Value) (es : List (String × Value)) :
    (put suffix value es)[(es.findIdx? (·.1 = suffix)).getD es.length]? = some (suffix, value) := by
  induction es with
  | nil => rfl
  | cons e es ih =>
    unfold put
    by_cases he : e.1 = suffix
    · simp [he, List.findIdx?_cons]
    · rw [if_neg he, List.findIdx?_cons, if_neg (by simpa using he), List.length_cons]
      cases hf : es.findIdx? (·.1 = suffix) with
      | none => simpa [hf] using ih
      | some i => simpa [hf] using ih

theorem getElem?_ordinal (t : ValueTable) (suffix : String) (value : Value) :
    (t.insert suffix value).entries[t.ordinal suffix]? = some (suffix, value) :=
  getElem?_put suffix value t.entries

end ValueTable

namespace Generator

variable {u : Utility} {table : ValueTable} {slot : SlotId} {suffix : String} {value : Value}

theorem map_fst_classes_utility : ((utility u table slot).classes).map (·.1) =
    (table.entries.map (·.1)).map u.classOf := by
  rw [classes, List.map_map, List.map_map]
  rfl

theorem className?_eq {g : Generator} (ordinal : Nat) :
    g.className? ordinal = (g.classes.map (·.1))[ordinal]? := (List.getElem?_map ..).symm

/-- Setting a suffix leaves the classes at their ordinals. -/
theorem className?_insert {ordinal : Nat} {className : String}
    (h : (utility u table slot).className? ordinal = some className) :
    (utility u (table.insert suffix value) slot).className? ordinal = some className := by
  rw [className?_eq, map_fst_classes_utility] at h ⊢
  rw [show (table.insert suffix value).entries = ValueTable.put suffix value table.entries from rfl,
    ValueTable.map_fst_put]
  split
  · exact h
  · rw [List.map_append, List.getElem?_append_left (List.getElem?_eq_some_iff.1 h).1, h]

theorem mem_classes_insert {token : String} :
    token ∈ (utility u (table.insert suffix value) slot).classes.map (·.1) ↔
      token ∈ (utility u table slot).classes.map (·.1) ∨ token = u.classOf suffix := by
  rw [map_fst_classes_utility, map_fst_classes_utility,
    show (table.insert suffix value).entries = ValueTable.put suffix value table.entries from rfl,
    ValueTable.map_fst_put]
  split
  · rename_i hs
    constructor
    · intro ht
      left
      exact ht
    · rintro (ht | rfl)
      · exact ht
      · exact List.mem_map_of_mem hs
  · rw [List.map_append, List.mem_append, List.map_singleton, List.mem_singleton]

end Generator

/-- The class that an entry leads to, at the place that the entry takes in a table. -/
def Utility.emission (u : Utility) (table : ValueTable) (slot : SlotId) (suffix : String)
    (value : Value) : Emission :=
  ⟨slot, table.ordinal suffix, u.classOf suffix, u.style suffix value⟩

theorem Utility.emission_mem (u : Utility) (table : ValueTable) (slot : SlotId) (suffix : String)
    (value : Value) : u.emission table slot suffix value ∈
      (Generator.utility u (table.insert suffix value) slot).emissions := by
  refine Generator.mem_emissions.2 ⟨rfl, ?_⟩
  show ((table.insert suffix value).entries.map _)[table.ordinal suffix]? = _
  rw [List.getElem?_map, ValueTable.getElem?_ordinal]
  rfl

/-- The document after a config has used some classes: in eager mode they are emitted at once. -/
def Document.used (d : Document) (mode : EmitMode) (xs : List Emission) : Document :=
  match mode with
  | .eager => d.absorbAll xs
  | .onDemand => d

/-- What is declared after a declaration was declared before or belongs to its scope. -/
theorem Variables.scope_of_mem_declare {vs : Variables} {scope : ContainerId} {name : String}
    {value : Value} {v : Variable} (h : v ∈ (vs.declare scope name value).1.entries) :
    v.scope = scope ∨ v ∈ vs.entries := by
  have hput {w : Variable} {ws : List Variable} (hv : v ∈ Variables.put w ws) : v = w ∨ v ∈ ws := by
    induction ws with
    | nil => simpa [Variables.put] using hv
    | cons x ws ih =>
      unfold Variables.put at hv
      split at hv <;> grind
  rcases hput h with rfl | hv
  · left
    rfl
  · right
    exact hv

namespace Engine

theorem mem_indexClass {index : List (String × GeneratorId)} {className token : String}
    {id i : Nat} : (token, i) ∈ indexClass index className id ↔
      (token, i) ∈ index ∨ (token = className ∧ i = id) := by
  unfold indexClass
  split
  · rename_i hmem
    constructor
    · intro h
      left
      exact h
    · rintro (h | ⟨rfl, rfl⟩)
      · exact h
      · exact hmem
  · simp

theorem mem_generatorsFor {e : Engine} {id : GeneratorId} {token : String} :
    id ∈ e.generatorsFor token ↔ (token, id) ∈ e.index := by
  simp [generatorsFor]

theorem utility?_eq_some_iff {e : Engine} {id : GeneratorId} {u : Utility} :
    e.utility? id = some u ↔ ∃ table slot, e.generators[id]? = some (.utility u table slot) := by
  unfold utility?
  constructor
  · intro h
    split at h
    · rename_i v table slot hg
      obtain rfl := Option.some.inj h
      exact ⟨table, slot, hg⟩
    · cases h
  · rintro ⟨table, slot, hg⟩
    rw [hg]

theorem withDocument_eq_ok_iff {e e' : Engine} {α : Type} {r : Except Error (Document × α)} {a : α} :
    e.withDocument r = .ok (e', a) ↔ ∃ d, r = .ok (d, a) ∧ e' = { e with document := d } := by
  cases r with
  | error cause =>
    constructor
    · intro h
      cases h
    · rintro ⟨d, h, -⟩
      cases h
  | ok x =>
    constructor
    · intro h
      obtain ⟨rfl, rfl⟩ := Prod.mk.inj (Except.ok.inj h)
      exact ⟨x.1, rfl, rfl⟩
    · rintro ⟨d, h, rfl⟩
      obtain rfl := Except.ok.inj h
      rfl

theorem useUtility_eq {e : Engine} {id : GeneratorId} {config : Option ValueTable} :
    e.useUtility id config = (e.utility? id).elim (.error (.unknownGenerator id))
      fun u => e.useEntries id (config.getD u.defaults).entries := by
  rw [useUtility, utility?]
  split <;> rfl

/-- Uses for several entries are one use after the other. -/
theorem useEntries_cons_eq_ok_iff {e e' : Engine} {id : GeneratorId} {entry : String × Value}
    {entries : List (String × Value)} {bindings : List Binding} :
    e.useEntries id (entry :: entries) = .ok (e', bindings) ↔
      ∃ u table slot, e.generators[id]? = some (.utility u table slot) ∧
      ∃ e₁ binding, e.useEntry id u table slot entry.1 entry.2 = .ok (e₁, binding) ∧
      ∃ rest, e₁.useEntries id entries = .ok (e', rest) ∧ bindings = binding :: rest := by
  rw [useEntries]
  constructor
  · intro h
    split at h
    · rename_i u table slot hg
      obtain ⟨⟨e₁, binding⟩, he, h⟩ := bind_eq_ok.1 h
      obtain ⟨⟨e₂, rest⟩, hr, h⟩ := bind_eq_ok.1 h
      obtain ⟨rfl, rfl⟩ := Prod.mk.inj (Except.ok.inj h)
      exact ⟨u, table, slot, hg, e₁, binding, he, rest, hr, rfl⟩
    · cases h
  · rintro ⟨u, table, slot, hg, e₁, binding, he, rest, hr, rfl⟩
    simp only [hg]
    rw [bind_eq_ok]
    refine ⟨(e₁, binding), he, ?_⟩
    rw [bind_eq_ok]
    exact ⟨(e', rest), hr, rfl⟩

theorem mem_foldl_indexClass {cs : List (String × Block)} {index : List (String × GeneratorId)}
    {token : String} {id i : Nat} :
    (token, i) ∈ cs.foldl (fun index c => indexClass index c.1 id) index ↔
      (token, i) ∈ index ∨ (token ∈ cs.map (·.1) ∧ i = id) := by
  induction cs generalizing index with
  | nil => simp
  | cons c cs ih =>
    rw [List.foldl_cons, ih, mem_indexClass, List.map_cons, List.mem_cons]
    grind

/-! ## Steps -/

/-- One call of a config. -/
inductive ConfigStep where
  | setMode (mode : EmitMode)
  | declare (name : String) (value : Value)
  | declareIn (scope : ContainerId) (name : String) (value : Value)
  | selector (parent : ContainerId) (text : String) (block : Block)
  | selectorCss (parent : ContainerId) (text css : String)
  | media (parent : ContainerId) (query : String)
  | keyframes (name : String)
  | raw (parent : ContainerId) (css : String)
  | addUtility (u : Utility)
  | useUtility (id : GeneratorId) (config : Option ValueTable)
  | addRecipe (definition : RecipeDefinition)
  | generate (id : GeneratorId) (token : String)
  | addExport (name : String) (x : Export)
  | clearWarnings

/-- What a step answers: the changed engine, or why the step fails. -/
def answer (e : Engine) : ConfigStep → Except Error Engine
  | .setMode mode => .ok (e.setMode mode)
  | .declare name value => .ok (e.declare name value).1
  | .declareIn scope name value => (e.declareIn scope name value).map (·.1)
  | .selector parent text block => (e.selector parent text block).map (·.1)
  | .selectorCss parent text css => .ok (e.selectorCss parent text css).1
  | .media parent query => (e.media parent query).map (·.1)
  | .keyframes name => (e.keyframes name).map (·.1)
  | .raw parent css => e.raw parent css
  | .addUtility u => (e.addUtility u).map (·.1)
  | .useUtility id config => (e.useUtility id config).map (·.1)
  | .addRecipe definition => (e.addRecipe definition).map (·.1)
  | .generate id token => (e.generate id token).map (·.1)
  | .addExport name x => .ok (e.addExport name x)
  | .clearWarnings => .ok e.clearWarnings

/-- The engine behind a step. One that fails changes nothing. -/
def step (e : Engine) (s : ConfigStep) : Engine :=
  match e.answer s with
  | .ok e' => e'
  | .error _ => e

theorem step_of_ok {e e' : Engine} {s : ConfigStep} (h : e.answer s = .ok e') : e.step s = e' := by
  rw [step, h]

theorem step_of_error {e : Engine} {s : ConfigStep} {cause : Error} (h : e.answer s = .error cause) :
    e.step s = e := by
  rw [step, h]

theorem step_declareIn {e : Engine} {scope : ContainerId} (h : e.document.contains scope = true)
    (name : String) (value : Value) : e.step (.declareIn scope name value) =
      { e with vars := (e.vars.declare scope name value).1 } := by
  apply step_of_ok
  rw [answer, declareIn, if_pos h]
  rfl

theorem step_selector {e : Engine} {parent id : ContainerId} {text : String} {block : Block}
    {d : Document} (h : e.document.selector parent text block = .ok (d, id)) :
    e.step (.selector parent text block) = { e with document := d } := by
  apply step_of_ok
  rw [answer, Engine.selector, h]
  rfl

theorem step_selectorCss {e : Engine} {parent id : ContainerId} {text css : String} {d : Document}
    (h : e.document.selector parent text (Css.parseDeclarations css).1 = .ok (d, id)) :
    e.step (.selectorCss parent text css) = { e with
      document := d
      notices := e.notices ++ (Css.parseDeclarations css).2.map Warning.malformedDeclaration } := by
  apply step_of_ok
  rw [answer, selectorCss]
  simp only [Engine.selector, h]
  rfl

theorem step_useUtility {e e' : Engine} {id : GeneratorId} {u : Utility} (hu : e.utility? id = some u)
    {config : Option ValueTable} {bindings : List Binding}
    (h : e.useEntries id (config.getD u.defaults).entries = .ok (e', bindings)) :
    e.step (.useUtility id config) = e' := by
  apply step_of_ok
  rw [answer, useUtility_eq, hu]
  exact congrArg (Except.map (·.1)) h

theorem step_useUtility_none {e : Engine} {id : GeneratorId} (hu : e.utility? id = none)
    (config : Option ValueTable) : e.step (.useUtility id config) = e := by
  apply step_of_error
  rw [answer, useUtility_eq, hu]
  rfl

theorem step_keyframes {e : Engine} {name : String} {d : Document} {id : ContainerId}
    (h : e.document.keyframes Document.rootId name = .ok (d, id)) :
    e.step (.keyframes name) = { e with document := d } := by
  apply step_of_ok
  rw [answer, Engine.keyframes, h]
  rfl

theorem step_raw {e : Engine} {parent : ContainerId} {css : String} {d : Document}
    (h : e.document.raw parent css = .ok d) : e.step (.raw parent css) = { e with document := d } := by
  apply step_of_ok
  rw [answer, Engine.raw, h]
  rfl

/-- The engine behind some steps. -/
def run (e : Engine) (steps : List ConfigStep) : Engine := steps.foldl step e

/-- The engines that configs lead to. -/
def Reached (e : Engine) : Prop :=
  ∃ (name : String) (mode : EmitMode) (steps : List ConfigStep), (new name mode).run steps = e

/-! ## Steps that teach nothing -/

/-- The steps that register generators or tell them new classes. -/
def ConfigStep.Teaches : ConfigStep → Prop
  | .addUtility _ | .useUtility .. | .addRecipe _ => True
  | _ => False

/-- What the other steps may make of an engine. -/
inductive Turns (e : Engine) : Engine → Prop
  | settings (mode : EmitMode) (exports : List (String × Export)) (notices : List Warning) :
    e.Turns { e with mode, exports, notices }
  | declare {scope : ContainerId} (hs : scope = Document.rootId ∨ e.document.contains scope = true)
      (name : String) (value : Value) :
    e.Turns { e with vars := (e.vars.declare scope name value).1 }
  | selector {parent id : ContainerId} {text : String} {block : Block} {d : Document}
      (hs : e.document.selector parent text block = .ok (d, id)) (notices : List Warning) :
    e.Turns { e with document := d, notices }
  | nested {parent id : ContainerId} {kind : Kind} {d : Document} (hk : kind.selectorText? = none)
      (hs : e.document.nested parent kind = .ok (d, id)) : e.Turns { e with document := d }
  | raw {parent : ContainerId} {css : String} {d : Document}
      (hs : e.document.raw parent css = .ok d) : e.Turns { e with document := d }
  | generate {id : GeneratorId} {token : String} {e' : Engine} {ids : List ContainerId}
      (hs : e.generate id token = .ok (e', ids)) : e.Turns e'
  | clearWarnings : e.Turns e.clearWarnings

theorem turns_step (e : Engine) {s : ConfigStep} (ht : ¬ s.Teaches) : e.Turns (e.step s) := by
  have hstay : e.Turns e := .settings e.mode e.exports e.notices
  unfold Engine.step
  split
  case h_2 => exact hstay
  case h_1 e' he =>
    cases s with
    | addUtility u => cases ht trivial
    | useUtility id config => cases ht trivial
    | addRecipe definition => cases ht trivial
    | setMode mode =>
      obtain rfl := Except.ok.inj he
      exact .settings mode e.exports e.notices
    | declare name value =>
      obtain rfl := Except.ok.inj he
      exact .declare (.inl rfl) name value
    | declareIn scope name value =>
      obtain ⟨reference, hs⟩ := Document.map_fst_eq_ok he
      unfold Engine.declareIn at hs
      split at hs
      · rename_i hscope
        obtain ⟨rfl, -⟩ := Prod.mk.inj (Except.ok.inj hs)
        exact .declare (.inr hscope) name value
      · cases hs
    | selector parent text block =>
      obtain ⟨id, hs⟩ := Document.map_fst_eq_ok he
      obtain ⟨d, hd, rfl⟩ := withDocument_eq_ok_iff.1 hs
      exact .selector hd e.notices
    | selectorCss parent text css =>
      obtain rfl := Except.ok.inj he
      unfold Engine.selectorCss
      simp only []
      split
      · rename_i hs
        obtain ⟨d, hd, rfl⟩ := withDocument_eq_ok_iff.1 hs
        exact Turns.selector (e := e) hd _
      · exact .settings e.mode e.exports _
    | media parent query =>
      obtain ⟨id, hs⟩ := Document.map_fst_eq_ok he
      obtain ⟨d, hd, rfl⟩ := withDocument_eq_ok_iff.1 hs
      exact .nested rfl hd
    | keyframes name =>
      obtain ⟨id, hs⟩ := Document.map_fst_eq_ok he
      obtain ⟨d, hd, rfl⟩ := withDocument_eq_ok_iff.1 hs
      exact .nested rfl hd
    | raw parent css =>
      have he : (e.document.raw parent css).map _ = .ok e' := he
      cases hd : e.document.raw parent css with
      | error cause => simp [hd, Except.map] at he
      | ok d =>
        rw [hd] at he
        obtain rfl := Except.ok.inj he
        exact .raw hd
    | generate id token =>
      obtain ⟨ids, hs⟩ := Document.map_fst_eq_ok he
      exact .generate hs
    | addExport name x =>
      obtain rfl := Except.ok.inj he
      exact .settings e.mode _ e.notices
    | clearWarnings =>
      obtain rfl := Except.ok.inj he
      exact .clearWarnings

/-! ## Every step keeps an engine sound -/

variable {e e' : Engine} {d' : Document} {id : Nat}

theorem sound_new (name : String) (mode : EmitMode) : (new name mode).Sound where
  document := Document.wellFormed_empty
  slots := by simp [new]
  owned g hg := by simp [new] at hg
  filled g hg := by simp [new] at hg
  scopes v hv := by cases hv
  indexed := by simp [new]

namespace Sound

/-- Declaring a variable in a container that exists. -/
theorem declare (h : e.Sound) {scope : Nat} (hs : e.document.contains scope = true) (name : String)
    (value : Value) : Sound { e with vars := (e.vars.declare scope name value).1 } where
  document := h.document
  slots := h.slots
  owned := h.owned
  filled := h.filled
  scopes v hv := by
    rcases Variables.scope_of_mem_declare hv with hscope | hv
    · rw [hscope]
      exact hs
    · exact h.scopes v hv
  indexed := h.indexed

theorem settings (h : e.Sound) (mode : EmitMode) (exports : List (String × Export))
    (notices : List Warning) : Sound { e with mode, exports, notices } :=
  ⟨h.document, h.slots, h.owned, h.filled, h.scopes, h.indexed⟩

theorem used (h : e.Sound) {g : Generator} (hg : g ∈ e.generators) {xs : List Emission}
    (hxs : xs ⊆ g.emissions) (mode : EmitMode) :
    Sound { e with document := e.document.used mode xs } := by
  cases mode with
  | onDemand => exact h
  | eager => exact (h.absorbAll hg hxs).2

/-! ### Generators -/

/-- A generator that is registered with a new slot, in which nothing stands yet. -/
theorem register (h : e.Sound) {slot : SlotId}
    (hr : e.document.reserveSlot Document.rootId = .ok (d', slot)) {g : Generator}
    (hg : g.slot = slot) {index : List (String × GeneratorId)}
    (hi : ∀ {token : String} {i : Nat}, (token, i) ∈ index ↔
      (token, i) ∈ e.index ∨ (token ∈ g.classes.map (·.1) ∧ i = e.generators.length)) :
    Sound { e with document := d', generators := e.generators ++ [g], index := index } := by
  obtain ⟨hk, hslots, rfl⟩ := Document.keeps_reserveSlot hr
  -- the slots of the other generators come before the new one
  have hlt {g' : Generator} (hg' : g' ∈ e.generators) : g'.slot < e.document.slots.length := by
    obtain ⟨sl, hsl, -⟩ := Option.map_eq_some_iff.1 (h.owned g' hg')
    exact (List.getElem?_eq_some_iff.1 hsl).1
  have hold {g' : Generator} (hg' : g' ∈ e.generators) :
      d'.slots[g'.slot]? = e.document.slots[g'.slot]? := by
    rw [hslots, List.getElem?_append_left (hlt hg')]
  have hnew : d'.slots[g.slot]? = some (Slot.vacant Document.rootId) := by
    rw [hslots, hg, List.getElem?_concat_length]
  refine ⟨h.document.reserveSlot hr, ?slots, ?owned, ?filled, ?scopes, ?indexed⟩
  case slots =>
    rw [List.map_append, List.nodup_append']
    refine ⟨h.slots, by simp, ?_⟩
    intro s hs hs'
    obtain ⟨g', hg', rfl⟩ := List.mem_map.1 hs
    have hs' : g'.slot = e.document.slots.length := (List.mem_singleton.1 hs').trans hg
    have hlt' := hlt hg'
    rw [hs'] at hlt'
    exact Nat.lt_irrefl _ hlt'
  case owned =>
    intro g' hg'
    rcases List.mem_append.1 hg' with hg' | hg'
    · rw [hold hg', h.owned g' hg']
    · rw [List.mem_singleton.1 hg', hnew]
      rfl
  case filled =>
    intro g' hg' ordinal id hat
    obtain ⟨sl, hsl, hmem⟩ := hat
    rcases List.mem_append.1 hg' with hg' | hg'
    · obtain ⟨className, hc, ht⟩ := h.filled g' hg' ⟨sl, (hold hg').symm.trans hsl, hmem⟩
      exact ⟨className, hc, hk.selectorText? ht⟩
    · rw [List.mem_singleton.1 hg', hnew, Option.some.injEq] at hsl
      rw [← hsl] at hmem
      cases hmem
  case scopes =>
    intro v hv
    exact hk.contains (h.scopes v hv)
  case indexed =>
    intro token i
    rw [hi, h.indexed]
    constructor
    · rintro (⟨g', hg', ht⟩ | ⟨ht, rfl⟩)
      · refine ⟨g', ?_, ht⟩
        rw [List.getElem?_append_left (List.getElem?_eq_some_iff.1 hg').1, hg']
      · exact ⟨g, List.getElem?_concat_length, ht⟩
    · rintro ⟨g', hg', ht⟩
      rcases Nat.lt_trichotomy i e.generators.length with hlt | rfl | hgt
      · left
        rw [List.getElem?_append_left hlt] at hg'
        exact ⟨g', hg', ht⟩
      · right
        rw [List.getElem?_concat_length, Option.some.injEq] at hg'
        rw [hg']
        exact ⟨ht, rfl⟩
      · rw [List.getElem?_eq_none (by simp; omega)] at hg'
        cases hg'

theorem addUtility_eq (h : e.Sound) (u : Utility) : e.addUtility u =
    if u.name = "" then .error (.invalidDefinition "utility" .emptyName)
    else if e.hasGenerator u.name then .error (.invalidDefinition u.name .nameTaken)
    else .ok ({ e with
      document := e.document.reserved Document.rootId
      generators := e.generators ++ [.utility u ∅ e.document.slots.length] },
      e.generators.length) := by
  rw [Engine.addUtility, Document.reserveSlot_eq h.document.contains_root]
  rfl

theorem addUtility (h : e.Sound) {u : Utility} (hs : e.addUtility u = .ok (e', id)) : e'.Sound := by
  rw [h.addUtility_eq] at hs
  split at hs
  · cases hs
  · split at hs
    · cases hs
    · obtain ⟨rfl, rfl⟩ := Prod.mk.inj (Except.ok.inj hs)
      refine h.register (Document.reserveSlot_eq h.document.contains_root) rfl ?_
      simp [Generator.classes, EmptyCollection.emptyCollection, ValueTable.empty]

/-- A recipe with a new slot. -/
theorem register_recipe (h : e.Sound) (recipe : Recipe) : Sound { e with
    document := e.document.reserved Document.rootId
    generators := e.generators ++ [.recipe recipe e.document.slots.length]
    index := recipe.classes.foldl (fun index c => indexClass index c.1 e.generators.length) e.index } :=
  h.register (Document.reserveSlot_eq h.document.contains_root) rfl mem_foldl_indexClass

/-- A recipe is registered with a slot of its own, and in eager mode its classes are emitted. -/
theorem addRecipe_eq (h : e.Sound) (r : RecipeDefinition) : e.addRecipe r =
    match Recipe.compile r with
    | .error cause => .error cause
    | .ok (recipe, warnings) =>
      if e.hasGenerator recipe.name then .error (.invalidDefinition recipe.name .nameTaken)
      else .ok ({ e with
        document := (e.document.reserved Document.rootId).used e.mode
          (Generator.recipe recipe e.document.slots.length).emissions
        generators := e.generators ++ [.recipe recipe e.document.slots.length]
        index := recipe.classes.foldl
          (fun index c => indexClass index c.1 e.generators.length) e.index
        notices := e.notices ++ warnings }, e.generators.length) := by
  have hr := Document.reserveSlot_eq h.document.contains_root
  cases hc : Recipe.compile r with
  | error cause => simp [Engine.addRecipe, hc, bind, Except.bind]
  | ok compiled =>
    obtain ⟨recipe, warnings⟩ := compiled
    cases ht : e.hasGenerator recipe.name with
    | true =>
      simp [Engine.addRecipe, hc, ht, bind, Except.bind, throw, throwThe, MonadExceptOf.throw]
    | false =>
      let g : Generator := .recipe recipe e.document.slots.length
      have hids := Document.emitAll_eq
        ((h.register_recipe recipe).absorbAll (g := g) (by simp [g]) (List.Subset.refl _)).1
      have hids : (e.document.reserved Document.rootId).emitAll e.document.slots.length 0
          recipe.classes = .ok ((e.document.reserved Document.rootId).absorbAll g.emissions,
            (e.document.reserved Document.rootId).landings g.emissions) := hids
      cases hm : e.mode <;>
        simp only [Engine.addRecipe, hc, ht, hr, hm, hids, bind, Except.bind, pure, Except.pure,
          Except.map, Bool.false_eq_true, if_false] <;> rfl

theorem addRecipe (h : e.Sound) {r : RecipeDefinition} (hs : e.addRecipe r = .ok (e', id)) :
    e'.Sound := by
  rw [h.addRecipe_eq] at hs
  split at hs
  · cases hs
  · rename_i recipe warnings hc
    split at hs
    · cases hs
    · obtain ⟨rfl, rfl⟩ := Prod.mk.inj (Except.ok.inj hs)
      exact ((h.register_recipe recipe).used (by simp) (List.Subset.refl _) e.mode).settings _ _ _

/-- A config registers a utility, if its name is free. -/
theorem step_addUtility (h : e.Sound) (u : Utility) : e.step (.addUtility u) =
    if u.name = "" ∨ e.hasGenerator u.name = true then e
    else { e with
      document := e.document.reserved Document.rootId
      generators := e.generators ++ [.utility u ∅ e.document.slots.length] } := by
  rw [Engine.step, answer, h.addUtility_eq]
  by_cases hn : u.name = ""
  · rw [if_pos hn, if_pos (.inl hn)]
    rfl
  · by_cases ht : e.hasGenerator u.name = true
    · rw [if_neg hn, if_pos ht, if_pos (.inr ht)]
      rfl
    · rw [if_neg hn, if_neg ht, if_neg (not_or.2 ⟨hn, ht⟩)]
      rfl

/-- A config registers a recipe, if it compiles and its name is free. -/
theorem step_addRecipe (h : e.Sound) (r : RecipeDefinition) : e.step (.addRecipe r) =
    match Recipe.compile r with
    | .error _ => e
    | .ok (recipe, warnings) =>
      if e.hasGenerator recipe.name then e
      else { e with
        document := (e.document.reserved Document.rootId).used e.mode
          (Generator.recipe recipe e.document.slots.length).emissions
        generators := e.generators ++ [.recipe recipe e.document.slots.length]
        index := recipe.classes.foldl
          (fun index c => indexClass index c.1 e.generators.length) e.index
        notices := e.notices ++ warnings } := by
  rw [Engine.step, answer, h.addRecipe_eq]
  cases Recipe.compile r with
  | error cause => rfl
  | ok compiled =>
    obtain ⟨recipe, warnings⟩ := compiled
    cases ht : e.hasGenerator recipe.name <;> simp only [ht] <;> rfl

/-- Setting a suffix of a utility's table, which lets its class name the utility. -/
theorem extend (h : e.Sound) {u : Utility} {table : ValueTable} {slot : SlotId}
    (hg : e.generators[id]? = some (.utility u table slot)) (suffix : String) (value : Value) :
    Sound { e with
      generators := e.generators.set id (.utility u (table.insert suffix value) slot)
      index := indexClass e.index (u.classOf suffix) id } := by
  have hid : id < e.generators.length := (List.getElem?_eq_some_iff.1 hg).1
  have hmem := List.mem_of_getElem? hg
  refine ⟨h.document, ?slots, ?owned, ?filled, h.scopes, ?indexed⟩
  case slots =>
    have hlen : id < (e.generators.map Generator.slot).length := by simpa using hid
    have hslot : slot = (e.generators.map Generator.slot)[id] := by
      rw [List.getElem_map, (List.getElem?_eq_some_iff.1 hg).2]
      rfl
    show ((e.generators.set id (.utility u (table.insert suffix value) slot)).map
      Generator.slot).Nodup
    rw [List.map_set]
    show ((e.generators.map Generator.slot).set id slot).Nodup
    rw [hslot, List.set_getElem_self]
    exact h.slots
  case owned =>
    intro g hg'
    rcases List.mem_or_eq_of_mem_set hg' with hg' | rfl
    · exact h.owned g hg'
    · exact h.owned (.utility u table slot) hmem
  case filled =>
    intro g hg' ordinal i hat
    rcases List.mem_or_eq_of_mem_set hg' with hg' | rfl
    · exact h.filled g hg' hat
    · obtain ⟨className, hc, ht⟩ := h.filled (.utility u table slot) hmem hat
      exact ⟨className, Generator.className?_insert hc, ht⟩
  case indexed =>
    intro token i
    rw [mem_indexClass, h.indexed, List.getElem?_set]
    by_cases hi : id = i
    · subst hi
      simp only [if_true, hid, hg, Option.some.injEq, exists_eq_left', and_true,
        Generator.mem_classes_insert]
    · simp [hi, Ne.symm hi]

/-- The class of an entry is admitted at the ordinal that it has in the new table. -/
theorem emit_entry (h : e.Sound) {u : Utility} {table : ValueTable} {slot : SlotId}
    (hg : e.generators[id]? = some (.utility u table slot)) (suffix : String) (value : Value) :
    e.document.emit slot (table.ordinal suffix) (u.classOf suffix) (u.style suffix value) =
      .ok (e.document.absorb (u.emission table slot suffix value)) := by
  have hgen := List.mem_set (List.getElem?_eq_some_iff.1 hg).1
    (.utility u (table.insert suffix value) slot)
  have hadm := (h.extend hg suffix value).admits hgen (Utility.emission_mem ..)
  exact h.document.emit_eq (x := u.emission table slot suffix value) hadm

theorem useEntry_eq (h : e.Sound) {u : Utility} {table : ValueTable} {slot : SlotId}
    (hg : e.generators[id]? = some (.utility u table slot)) (suffix : String) (value : Value) :
    ∃ binding, e.useEntry id u table slot suffix value = .ok ({ e with
      document := e.document.used e.mode [u.emission table slot suffix value]
      generators := e.generators.set id (.utility u (table.insert suffix value) slot)
      index := indexClass e.index (u.classOf suffix) id }, binding) := by
  unfold Engine.useEntry
  cases hm : e.mode with
  | onDemand => exact ⟨_, rfl⟩
  | eager =>
    simp only [h.emit_entry hg]
    exact ⟨_, rfl⟩

theorem useEntry (h : e.Sound) {u : Utility} {table : ValueTable} {slot : SlotId}
    (hg : e.generators[id]? = some (.utility u table slot)) {suffix : String} {value : Value}
    {binding : Binding} (hs : e.useEntry id u table slot suffix value = .ok (e', binding)) :
    e'.Sound := by
  obtain ⟨binding', hok⟩ := h.useEntry_eq hg suffix value
  rw [hok] at hs
  obtain ⟨rfl, rfl⟩ := Prod.mk.inj (Except.ok.inj hs)
  refine (h.extend hg suffix value).used (g := .utility u (table.insert suffix value) slot) ?_ ?_ _
  · exact List.mem_set (List.getElem?_eq_some_iff.1 hg).1 _
  · simpa using Utility.emission_mem u table slot suffix value

theorem useEntries (h : e.Sound) {entries : List (String × Value)} {bindings : List Binding}
    (hs : e.useEntries id entries = .ok (e', bindings)) : e'.Sound := by
  induction entries generalizing e bindings with
  | nil =>
    obtain ⟨rfl, -⟩ := Prod.mk.inj (Except.ok.inj hs)
    exact h
  | cons entry entries ih =>
    obtain ⟨u, table, slot, hg, e₁, binding, he, rest, hr, -⟩ := useEntries_cons_eq_ok_iff.1 hs
    exact ih (h.useEntry hg he) hr

/-- A use of a utility succeeds, and the utility can be used again. -/
theorem useEntry_ok (h : e.Sound) {u : Utility} {table : ValueTable} {slot : SlotId}
    (hg : e.generators[id]? = some (.utility u table slot)) (suffix : String) (value : Value) :
    ∃ e₁ binding, e.useEntry id u table slot suffix value = .ok (e₁, binding) ∧ e₁.Sound ∧
      e₁.utility? id = some u := by
  obtain ⟨binding, he⟩ := h.useEntry_eq hg suffix value
  refine ⟨_, binding, he, h.useEntry hg he, ?_⟩
  exact utility?_eq_some_iff.2 ⟨_, _, List.getElem?_set_self (List.getElem?_eq_some_iff.1 hg).1⟩

/-- The first of several uses, and the engine in which the others follow. -/
theorem useEntries_cons (h : e.Sound) {u : Utility} (hu : e.utility? id = some u)
    {entry : String × Value} {entries : List (String × Value)} {bindings : List Binding}
    (hs : e.useEntries id (entry :: entries) = .ok (e', bindings)) :
    ∃ table slot e₁ rest, e.generators[id]? = some (.utility u table slot) ∧
      e₁ = { e with
        document := e.document.used e.mode [u.emission table slot entry.1 entry.2]
        generators := e.generators.set id (.utility u (table.insert entry.1 entry.2) slot)
        index := indexClass e.index (u.classOf entry.1) id } ∧
      e₁.Sound ∧ e₁.utility? id = some u ∧ e₁.useEntries id entries = .ok (e', rest) := by
  obtain ⟨v, table, slot, hg, e₁, binding, he₁, rest, hrest, -⟩ := useEntries_cons_eq_ok_iff.1 hs
  obtain ⟨_, _, hg₁⟩ := utility?_eq_some_iff.1 hu
  obtain ⟨rfl, rfl, rfl⟩ := Generator.utility.inj (Option.some.inj (hg.symm.trans hg₁))
  obtain ⟨_, hok⟩ := h.useEntry_eq hg entry.1 entry.2
  have heq := (Prod.mk.inj (Except.ok.inj (he₁.symm.trans hok))).1
  refine ⟨table, slot, e₁, rest, hg, heq, h.useEntry hg he₁, ?_, hrest⟩
  rw [utility?_eq_some_iff, heq]
  exact ⟨_, _, List.getElem?_set_self (List.getElem?_eq_some_iff.1 hg).1⟩

/-- Uses of a utility never fail. -/
theorem useEntries_ok (h : e.Sound) {u : Utility} (hu : e.utility? id = some u)
    (entries : List (String × Value)) : ∃ e' bindings, e.useEntries id entries = .ok (e', bindings) := by
  induction entries generalizing e with
  | nil => exact ⟨_, _, rfl⟩
  | cons entry entries ih =>
    obtain ⟨table, slot, hg⟩ := utility?_eq_some_iff.1 hu
    obtain ⟨e₁, binding, he, h₁, hu₁⟩ := h.useEntry_ok hg entry.1 entry.2
    obtain ⟨e', rest, hr⟩ := ih h₁ hu₁
    exact ⟨e', _, useEntries_cons_eq_ok_iff.2 ⟨u, table, slot, hg, _, binding, he, rest, hr, rfl⟩⟩

theorem useUtility (h : e.Sound) {config : Option ValueTable} {bindings : List Binding}
    (hs : e.useUtility id config = .ok (e', bindings)) : e'.Sound := by
  rw [useUtility_eq] at hs
  cases hu : e.utility? id with
  | none => simp [hu] at hs
  | some u =>
    rw [hu] at hs
    exact h.useEntries hs

theorem generate (h : e.Sound) {token : String} {ids : List ContainerId}
    (hs : e.generate id token = .ok (e', ids)) : e'.Sound := by
  cases hg : e.generators[id]? with
  | none => simp [Engine.generate, hg] at hs
  | some g =>
    have hids := h.generate_eq hg token
    rw [hids] at hs
    obtain ⟨rfl, -⟩ := Prod.mk.inj (Except.ok.inj hs)
    exact (h.absorbAll (List.mem_of_getElem? hg) Generator.asked_subset).2

theorem turns (h : e.Sound) (ht : e.Turns e') : e'.Sound := by
  cases ht with
  | settings mode exports notices => exact h.settings mode exports notices
  | declare hs name value =>
    rcases hs with rfl | hs
    · exact h.declare h.document.contains_root name value
    · exact h.declare hs name value
  | selector hs notices =>
    obtain ⟨hk, hslots⟩ := Document.keeps_selector hs
    exact (h.withDocument_of_slots (h.document.selector hs) hk hslots).settings _ _ notices
  | nested hk hs =>
    obtain ⟨hkeeps, hslots⟩ := Document.keeps_nested hs
    exact h.withDocument_of_slots (h.document.nested hk hs) hkeeps hslots
  | raw hs =>
    obtain ⟨hk, hslots⟩ := Document.keeps_raw hs
    exact h.withDocument_of_slots (h.document.raw hs) hk hslots
  | generate hs => exact h.generate hs
  | clearWarnings =>
    exact (h.withDocument_of_slots (h.document.warnings []) (.of_containers rfl) rfl).settings _ _ []

/-- One step keeps an engine sound. -/
theorem step (h : e.Sound) (s : ConfigStep) : (e.step s).Sound := by
  by_cases ht : s.Teaches
  · unfold Engine.step
    split
    case h_2 => exact h
    case h_1 e' he =>
      cases s with
      | addUtility u =>
        obtain ⟨id, hs⟩ := Document.map_fst_eq_ok he
        exact h.addUtility hs
      | useUtility id config =>
        obtain ⟨bindings, hs⟩ := Document.map_fst_eq_ok he
        exact h.useUtility hs
      | addRecipe definition =>
        obtain ⟨id, hs⟩ := Document.map_fst_eq_ok he
        exact h.addRecipe hs
      | _ => cases ht
  · exact h.turns (turns_step e ht)

end Sound

/-- **Every engine that a config leads to is sound.** -/
theorem Reached.sound (h : e.Reached) : e.Sound := by
  obtain ⟨name, mode, steps, rfl⟩ := h
  -- the steps may start from any sound engine
  have hrun (e : Engine) (he : e.Sound) : (e.run steps).Sound := by
    induction steps generalizing e with
    | nil => exact he
    | cons s steps ih => exact ih _ (he.step s)
  exact hrun _ (sound_new name mode)

end Engine

end AtomicCss
