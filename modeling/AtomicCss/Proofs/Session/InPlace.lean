import AtomicCss.Proofs.Document.InPlace
import AtomicCss.Proofs.Session.Ordinals
import Mathlib

/-! # Engines in place

An engine that is changed in place has no copy to go back to. Its calls are put together here from steps
whose work stays done when a later one fails. In an engine that arises no step fails behind the checks,
with one exception: `selectorCss` reports its malformed declarations before it asks whether its parent
exists. So a call that fails leaves the engine as it is, but for these reports
(`Arises.run_perform`). -/

namespace AtomicCss

namespace Engine

/-- The engine with further notices. -/
def noted (e : Engine) (ws : List Warning) : Engine := { e with notices := e.notices ++ ws }

/-- The malformed declarations of a text. -/
def malformed (css : String) : List Warning :=
  (Css.parseDeclarations css).2.map .malformedDeclaration

theorem selectorCss_eq (e : Engine) (parent : ContainerId) (text css : String) :
    e.selectorCss parent text css =
      match (e.noted (malformed css)).selector parent text (Css.parseDeclarations css).1 with
      | .ok (e', id) => (e', .ok id)
      | .error cause => (e.noted (malformed css), .error cause) := rfl

namespace InPlace

/-! ## Calls -/

/-- Works on the document. -/
def onDocument {α : Type} (x : EStateM Error Document α) : EStateM Error Engine α := fun e =>
  match x.run e.document with
  | .ok a d => .ok a { e with document := d }
  | .error cause d => .error cause { e with document := d }

def declareIn (scope : ContainerId) (name : String) (value : Value) :
    EStateM Error Engine Reference := do
  unless (← get).document.contains scope do
    throw (.unknownContainer scope)
  modifyGet fun e =>
    let (vars, reference) := e.vars.declare scope name value
    (reference, { e with vars := vars })

def selectorCss (parent : ContainerId) (text css : String) : EStateM Error Engine ContainerId := do
  -- the reports are made before anything is known about the parent
  modify (·.noted (malformed css))
  onDocument (Document.InPlace.selector parent text (Css.parseDeclarations css).1)

/-- Goes on if no generator has a name. -/
def ensureFree (name : String) : EStateM Error Engine Unit := do
  if (← get).hasGenerator name then
    throw (.invalidDefinition name .nameTaken)

def addUtility (u : Utility) : EStateM Error Engine GeneratorId := do
  if u.name = "" then
    throw (.invalidDefinition "utility" .emptyName)
  ensureFree u.name
  let slot ← onDocument (Document.InPlace.reserveSlot Document.rootId)
  let id := (← get).generators.length
  modify fun e => { e with generators := e.generators ++ [.utility u ∅ slot] }
  return id

def useEntry (id : GeneratorId) (u : Utility) (table : ValueTable) (slot : SlotId)
    (suffix : String) (value : Value) : EStateM Error Engine Binding := do
  let ordinal := table.ordinal suffix
  -- the table has the entry before its class is emitted
  modify fun e =>
    { e with generators := e.generators.set id (.utility u (table.insert suffix value) slot) }
  let className := u.classOf suffix
  let container ←
    match (← get).mode with
    | .eager =>
      some <$> onDocument (Document.InPlace.emit slot ordinal className (u.style suffix value))
    | .onDemand => pure none
  modify fun e => { e with index := indexClass e.index className id }
  return ⟨suffix, className, container⟩

def useEntries (id : GeneratorId) : List (String × Value) → EStateM Error Engine (List Binding)
  | [] => return []
  | (suffix, value) :: rest => do
    match (← get).generators[id]? with
    | some (.utility u table slot) =>
      let binding ← useEntry id u table slot suffix value
      let bindings ← useEntries id rest
      return binding :: bindings
    | _ => throw (.unknownGenerator id)

def useUtility (id : GeneratorId) (config : Option ValueTable) :
    EStateM Error Engine (List Binding) := do
  match (← get).utility? id with
  | some u => useEntries id (config.getD u.defaults).entries
  | none => throw (.unknownGenerator id)

def indexAll (id : GeneratorId) : List (String × Block) → EStateM Error Engine Unit
  | [] => return
  | (className, _) :: rest => do
    modify fun e => { e with index := indexClass e.index className id }
    indexAll id rest

def addRecipe (definition : RecipeDefinition) : EStateM Error Engine GeneratorId := do
  let (recipe, warnings) ← MonadExcept.ofExcept (Recipe.compile definition)
  ensureFree recipe.name
  -- unlike those of a selector, these reports are made behind the checks
  modify (·.noted warnings)
  let slot ← onDocument (Document.InPlace.reserveSlot Document.rootId)
  let id := (← get).generators.length
  indexAll id recipe.classes
  match (← get).mode with
  | .eager => let _ ← onDocument (Document.InPlace.emitAll slot 0 recipe.classes)
  | .onDemand => pure ()
  modify fun e => { e with generators := e.generators ++ [.recipe recipe slot] }
  return id

def generate (id : GeneratorId) (token : String) : EStateM Error Engine (List ContainerId) := do
  match (← get).generators[id]? with
  | none => throw (.unknownGenerator id)
  | some g =>
    match g.classes.findIdx? (·.1 = token), g with
    | none, _ => return []
    | some ordinal, .utility .. =>
      onDocument (Document.InPlace.emitAll g.slot ordinal ((g.classes.drop ordinal).take 1))
    | some _, .recipe .. => onDocument (Document.InPlace.emitAll g.slot 0 g.classes)

/-! ## Where they lead -/

variable {e : Engine}

theorem run_onDocument {α : Type} {x : EStateM Error Document α}
    {r : Except Error (Document × α)} (h : x.run e.document = atOnce e.document r) :
    (onDocument x).run e = atOnce e (e.withDocument r) := by
  show (match x.run e.document with | .ok a d => _ | .error cause d => _) = _
  rw [h]
  cases r <;> rfl

theorem run_declareIn (e : Engine) (scope : ContainerId) (name : String) (value : Value) :
    (declareIn scope name value).run e = atOnce e (e.declareIn scope name value) := by
  rw [Engine.declareIn]
  by_cases hs : e.document.contains scope = true
  · simp [declareIn, hs, atOnce]
  · simp [declareIn, hs, atOnce]

theorem run_selectorCss (h : e.Sound) (parent : ContainerId) (text css : String) :
    (selectorCss parent text css).run e =
      match e.selectorCss parent text css with
      | (e', .ok id) => .ok id e'
      | (e', .error cause) => .error cause e' := by
  have hselector : (onDocument _).run (e.noted (malformed css)) = atOnce _
      ((e.noted (malformed css)).selector parent text (Css.parseDeclarations css).1) :=
    run_onDocument (Document.InPlace.run_selector h.document parent text _)
  rw [selectorCss, EStateM.run_bind, EStateM.run_modify, selectorCss_eq]
  refine hselector.trans ?_
  cases (e.noted (malformed css)).selector parent text (Css.parseDeclarations css).1 <;> rfl

theorem run_ensureFree (name : String) (e : Engine) : (ensureFree name).run e =
    if e.hasGenerator name then .error (.invalidDefinition name .nameTaken) e else .ok () e := by
  cases h : e.hasGenerator name <;> simp [ensureFree, h]

/-- Reserving a slot of the root succeeds. -/
theorem run_reserve (h : e.document.contains Document.rootId = true) :
    (onDocument (Document.InPlace.reserveSlot Document.rootId)).run e =
      .ok e.document.slots.length { e with document := e.document.reserved Document.rootId } := by
  rw [run_onDocument (Document.InPlace.run_reserveSlot ..), Document.reserveSlot_eq h]
  rfl

theorem run_addUtility (h : e.Sound) (u : Utility) :
    (addUtility u).run e = atOnce e (e.addUtility u) := by
  rw [h.addUtility_eq]
  by_cases hn : u.name = ""
  · simp [addUtility, hn, atOnce]
  · cases ht : e.hasGenerator u.name with
    | true => simp [addUtility, hn, run_ensureFree, ht, atOnce]
    | false =>
      simp [addUtility, hn, run_ensureFree, ht, run_reserve, h.document.contains_root, atOnce]

theorem run_emit (h : e.document.WellFormed) (slot : SlotId) (ordinal : Nat) (className : String)
    (block : Block) : (onDocument (Document.InPlace.emit slot ordinal className block)).run e =
      atOnce e (e.withDocument (e.document.emit slot ordinal className block)) :=
  run_onDocument (Document.InPlace.run_emit h slot ordinal className block)

theorem run_emitAll {slot : SlotId} {ordinal : Nat} {cs : List (String × Block)}
    (h : e.document.AdmitsAll (Emission.listFrom slot ordinal cs)) :
    (onDocument (Document.InPlace.emitAll slot ordinal cs)).run e =
      atOnce e (e.withDocument (e.document.emitAll slot ordinal cs)) :=
  run_onDocument (Document.InPlace.run_emitAll h)

theorem run_useEntry (h : e.Sound) {id : GeneratorId} {u : Utility} {table : ValueTable}
    {slot : SlotId} (hg : e.generators[id]? = some (.utility u table slot)) (suffix : String)
    (value : Value) : (useEntry id u table slot suffix value).run e =
      atOnce e (e.useEntry id u table slot suffix value) := by
  rw [Engine.useEntry]
  cases hm : e.mode with
  | onDemand =>
    simp only [useEntry, EStateM.run_bind, EStateM.run_modify, EStateM.run_get, hm]
    rfl
  | eager =>
    have hok := h.emit_entry hg suffix value
    simp only [useEntry, EStateM.run_bind, EStateM.run_modify, EStateM.run_get, EStateM.run_map, hm,
      run_emit, h.document, hok, withDocument, Except.map, atOnce, EStateM.Result.map]
    rfl

theorem run_useEntries (h : e.Sound) {id : GeneratorId} {u : Utility} (hu : e.utility? id = some u)
    (entries : List (String × Value)) :
    (useEntries id entries).run e = atOnce e (e.useEntries id entries) := by
  induction entries generalizing e with
  | nil => rfl
  | cons entry entries ih =>
    obtain ⟨table, slot, hg⟩ := utility?_eq_some_iff.1 hu
    obtain ⟨e₁, binding, he, h₁, hu₁⟩ := h.useEntry_ok hg entry.1 entry.2
    have hfirst := run_useEntry h hg entry.1 entry.2
    rw [he] at hfirst
    have hrest := ih h₁ hu₁
    obtain ⟨e', bindings, hr⟩ := h₁.useEntries_ok hu₁ entries
    rw [hr] at hrest
    rw [useEntries_cons_eq_ok_iff.2 ⟨u, table, slot, hg, _, binding, he, bindings, hr, rfl⟩]
    simp [useEntries, hg, hfirst, hrest, atOnce]

theorem run_useUtility (h : e.Sound) (id : GeneratorId) (config : Option ValueTable) :
    (useUtility id config).run e = atOnce e (e.useUtility id config) := by
  rw [useUtility_eq, useUtility, EStateM.run_bind, EStateM.run_get]
  cases hu : e.utility? id with
  | none =>
    simp only [hu]
    rfl
  | some u =>
    simp only [hu]
    exact run_useEntries h hu _

theorem run_generate (h : e.Sound) (id : GeneratorId) (token : String) :
    (generate id token).run e = atOnce e (e.generate id token) := by
  rw [Engine.generate]
  cases hg : e.generators[id]? with
  | none =>
    simp only [generate, EStateM.run_bind, EStateM.run_get, hg]
    rfl
  | some g =>
    have hasked : g.asked token ⊆ g.emissions := g.asked_subset
    unfold Generator.asked at hasked
    simp only [generate, EStateM.run_bind, EStateM.run_get, hg]
    cases hfind : g.classes.findIdx? (·.1 = token) with
    | none => rfl
    | some ordinal =>
      rw [hfind] at hasked
      cases g with
      | _ =>
        -- what the token asks of either kind of generator are classes of its own
        have hadmits := (h.absorbAll (List.mem_of_getElem? hg) hasked).1
        exact run_emitAll hadmits

theorem run_indexAll (id : GeneratorId) (cs : List (String × Block)) (e : Engine) :
    (indexAll id cs).run e =
      .ok () { e with index := cs.foldl (fun index c => indexClass index c.1 id) e.index } := by
  induction cs generalizing e with
  | nil => rfl
  | cons c cs ih =>
    rw [indexAll, EStateM.run_bind, EStateM.run_modify]
    exact ih _

theorem run_addRecipe (h : e.Sound) (definition : RecipeDefinition) :
    (addRecipe definition).run e = atOnce e (e.addRecipe definition) := by
  rw [h.addRecipe_eq]
  cases hc : Recipe.compile definition with
  | error cause =>
    simp only [addRecipe, hc]
    rfl
  | ok compiled =>
    obtain ⟨recipe, warnings⟩ := compiled
    cases ht : e.hasGenerator recipe.name with
    | true =>
      simp [addRecipe, hc, ht, run_ensureFree, atOnce, MonadExcept.ofExcept]
    | false =>
      cases hm : e.mode with
      | onDemand =>
        simp [addRecipe, hc, ht, run_ensureFree, noted, run_reserve, h.document.contains_root,
          run_indexAll, hm, MonadExcept.ofExcept, Document.used, atOnce]
      | eager =>
        have hadmits : (e.document.reserved Document.rootId).AdmitsAll
            (Emission.listFrom e.document.slots.length 0 recipe.classes) :=
          ((h.register_recipe recipe).absorbAll (g := .recipe recipe e.document.slots.length)
            (by simp) (List.Subset.refl _)).1
        simp [addRecipe, hc, ht, run_ensureFree, noted, run_reserve, h.document.contains_root,
          run_indexAll, hm, run_emitAll, hadmits, Document.emitAll_eq hadmits, MonadExcept.ofExcept,
          Document.used, atOnce, withDocument, Except.map]
        rfl

/-- What a call gives is forgotten. -/
theorem run_discard {α : Type} {x : EStateM Error Engine α} {r : Except Error (Engine × α)}
    (h : x.run e = atOnce e r) :
    (discard x : EStateM Error Engine Unit).run e = atOnce e ((r.map (·.1)).map (·, ())) := by
  show ((fun _ => ()) <$> x).run e = _
  rw [EStateM.run_map, h]
  cases r <;> rfl

end InPlace

/-! ## Steps -/

variable {e : Engine}

namespace ConfigStep

/-- A step that is carried out in place. -/
def perform : ConfigStep → EStateM Error Engine Unit
  | setMode mode => modify (·.setMode mode)
  | declare name value => modify fun e => (e.declare name value).1
  | declareIn scope name value => discard (InPlace.declareIn scope name value)
  | selector parent text block =>
    discard (InPlace.onDocument (Document.InPlace.selector parent text block))
  | selectorCss parent text css => discard (InPlace.selectorCss parent text css)
  | media parent query =>
    discard (InPlace.onDocument (Document.InPlace.nested parent (.media (Text.trimmed query))))
  | keyframes name =>
    discard (InPlace.onDocument
      (Document.InPlace.nested Document.rootId (.keyframes (Text.trimmed name))))
  | raw parent css => InPlace.onDocument (Document.InPlace.raw parent css)
  | addUtility u => discard (InPlace.addUtility u)
  | useUtility id config => discard (InPlace.useUtility id config)
  | addRecipe definition => discard (InPlace.addRecipe definition)
  | generate id token => discard (InPlace.generate id token)
  | addExport name x => modify (·.addExport name x)
  | clearWarnings => modify (·.clearWarnings)

/-- The malformed declarations that a step reports. -/
def malformed : ConfigStep → List Warning
  | selectorCss _ _ css => Engine.malformed css
  | _ => []

end ConfigStep

/-- Why a step fails, if it does. -/
def refusal? (e : Engine) : ConfigStep → Option Error
  | .selectorCss parent text css =>
    match (e.selectorCss parent text css).2 with
    | .ok _ => none
    | .error cause => some cause
  | s =>
    match e.answer s with
    | .ok _ => none
    | .error cause => some cause

/-- A step in place leads where `step` leads, and if it fails, it only adds to the notices. -/
def Settles (e : Engine) (s : ConfigStep) : Prop :=
  match e.refusal? s with
  | none => s.perform.run e = .ok () (e.step s)
  | some cause => s.perform.run e = .error cause (e.noted s.malformed) ∧
    e.step s = e.noted s.malformed

theorem noted_eq_self_iff {ws : List Warning} : e.noted ws = e ↔ ws = [] := by
  constructor
  · intro h
    have hnotices : e.notices ++ ws = e.notices := congrArg notices h
    exact List.append_right_eq_self.1 hnotices
  · rintro rfl
    rw [noted, List.append_nil]

/-- A step that changes the engine as a whole. -/
theorem settles_of_answer {s : ConfigStep}
    (hs : s.perform.run e = atOnce e ((e.answer s).map (·, ())))
    (hr : e.refusal? s = match e.answer s with | .ok _ => none | .error cause => some cause)
    (hm : s.malformed = []) : e.Settles s := by
  unfold Settles
  rw [hs, hr, hm, noted_eq_self_iff.2 rfl]
  cases ha : e.answer s with
  | ok e' =>
    rw [step_of_ok ha]
    rfl
  | error cause => exact ⟨rfl, step_of_error ha⟩

/-- **Every step settles** in a sound engine. -/
theorem Sound.settles (h : e.Sound) (s : ConfigStep) : e.Settles s := by
  cases s with
  | setMode mode => exact settles_of_answer rfl rfl rfl
  | declare name value => exact settles_of_answer rfl rfl rfl
  | declareIn scope name value =>
    exact settles_of_answer (InPlace.run_discard (InPlace.run_declareIn ..)) rfl rfl
  | selector parent text block =>
    have hs := InPlace.run_onDocument (Document.InPlace.run_selector h.document parent text block)
    exact settles_of_answer (InPlace.run_discard hs) rfl rfl
  | selectorCss parent text css =>
    have hs := InPlace.run_selectorCss h parent text css
    have hperform : (ConfigStep.selectorCss parent text css).perform.run e =
        EStateM.Result.map (fun _ => ()) ((InPlace.selectorCss parent text css).run e) :=
      EStateM.run_map ..
    have hstep : e.step (.selectorCss parent text css) = (e.selectorCss parent text css).1 := rfl
    rw [Settles, hperform, hs, hstep, refusal?, selectorCss_eq]
    cases hcss : (e.noted (malformed css)).selector parent text (Css.parseDeclarations css).1 with
    | ok x => rfl
    | error cause => exact ⟨rfl, rfl⟩
  | media parent query =>
    have hs := InPlace.run_onDocument
      (Document.InPlace.run_nested e.document parent (.media (Text.trimmed query)))
    exact settles_of_answer (InPlace.run_discard hs) rfl rfl
  | keyframes name =>
    have hs := InPlace.run_onDocument
      (Document.InPlace.run_nested e.document Document.rootId (.keyframes (Text.trimmed name)))
    exact settles_of_answer (InPlace.run_discard hs) rfl rfl
  | raw parent css =>
    have hs := InPlace.run_onDocument (Document.InPlace.run_raw e.document parent css)
    refine settles_of_answer (hs.trans ?_) rfl rfl
    show _ = atOnce e ((Except.map _ (e.document.raw parent css)).map _)
    cases e.document.raw parent css <;> rfl
  | addUtility u => exact settles_of_answer (InPlace.run_discard (InPlace.run_addUtility h u)) rfl rfl
  | useUtility id config =>
    exact settles_of_answer (InPlace.run_discard (InPlace.run_useUtility h id config)) rfl rfl
  | addRecipe definition =>
    exact settles_of_answer (InPlace.run_discard (InPlace.run_addRecipe h definition)) rfl rfl
  | generate id token =>
    exact settles_of_answer (InPlace.run_discard (InPlace.run_generate h id token)) rfl rfl
  | addExport name x => exact settles_of_answer rfl rfl rfl
  | clearWarnings => exact settles_of_answer rfl rfl rfl

/-- The main result. A step that is carried out in place leads where `step` leads. If it fails, it has
only added its malformed declarations to the notices: all the rest of the engine is as it was, and the
notices are, too, unless there are such declarations, which only `selectorCss` has. -/
theorem Arises.run_perform (h : e.Arises) (s : ConfigStep) :
    match e.refusal? s with
    | none => s.perform.run e = .ok () (e.step s)
    | some cause => s.perform.run e = .error cause (e.noted s.malformed) ∧
      e.step s = e.noted s.malformed ∧ (e.noted s.malformed = e ↔ s.malformed = []) := by
  have hs := h.sound.settles s
  unfold Settles at hs
  split at hs
  · exact hs
  · exact ⟨hs.1, hs.2, noted_eq_self_iff⟩

/-- A fragment and a selector that are meant for a container that does not exist. -/
theorem run_perform_misplaced : (new "app" .eager).Arises ∧
    (ConfigStep.raw 9 "a {}").perform.run (new "app" .eager) =
      .error (.unknownContainer 9) (new "app" .eager) ∧
    ∃ e', (ConfigStep.selectorCss 9 ".a" "oops; color: red").perform.run (new "app" .eager) =
      .error (.unknownContainer 9) e' ∧ e' ≠ new "app" .eager ∧
      e'.notices = [.malformedDeclaration "oops"] := by
  have harises : (new "app" .eager).Arises := .new "app" .eager
  have hraw := harises.run_perform (.raw 9 "a {}")
  have hcss := harises.run_perform (.selectorCss 9 ".a" "oops; color: red")
  have hraw' : (new "app" .eager).refusal? (.raw 9 "a {}") = some (.unknownContainer 9) := by
    decide +kernel
  have hcss' : (new "app" .eager).refusal? (.selectorCss 9 ".a" "oops; color: red") =
      some (.unknownContainer 9) := by decide +kernel
  have hmalformed : (ConfigStep.selectorCss 9 ".a" "oops; color: red").malformed =
      [.malformedDeclaration "oops"] := by decide +kernel
  rw [hraw'] at hraw
  rw [hcss', hmalformed] at hcss
  refine ⟨harises, ?_, _, hcss.1, ?_, rfl⟩
  · rw [hraw.1, hraw.2.2.2 rfl]
  · intro hsame
    cases hcss.2.2.1 hsame

end Engine

end AtomicCss
