import AtomicCss.Proofs.Keyed
import AtomicCss.Proofs.Manifest.Recipes
import AtomicCss.Proofs.Session.Life
import AtomicCss.Proofs.Session.Sharing

/-! # What a session exports

Of all that may happen to an engine, only the exports of its config change what it exports
(`Session.exports_run`): a name stays where it was exported first, with what was exported last. The
manifest lists these exports, and the description of a recipe agrees with what the engine answers
(`Session.manifest_agrees`). -/

namespace AtomicCss

/-- The name under which something is exported. -/
def ManifestExport.name : ManifestExport → String
  | selector name _ => name
  | .variable name _ _ => name
  | utility name _ => name
  | recipe name _ _ _ _ => name

namespace Engine

variable {e e' : Engine} {id : GeneratorId} {name : String}

/-! ## Exports by name -/

theorem putExport_eq_putBy (name : String) (x : Export) (es : List (String × Export)) :
    putExport name x es = putBy (·.1) (name, x) es := by
  induction es with
  | nil => rfl
  | cons e es ih => simp only [putExport, putBy, ih]

/-- Exports one after the other. -/
def exportAll (xs : List (String × Export)) (es : List (String × Export)) : List (String × Export) :=
  xs.foldl (fun es p => putExport p.1 p.2 es) es

theorem exportAll_eq_putAllBy (xs es : List (String × Export)) :
    exportAll xs es = putAllBy (·.1) xs es := by
  simp only [exportAll, putExport_eq_putBy]
  rfl

theorem map_fst_exportAll (xs : List (String × Export)) :
    (exportAll xs []).map (·.1) = (xs.map (·.1)).eraseDups := by
  rw [exportAll_eq_putAllBy, map_putAllBy]

theorem find?_exportAll (xs : List (String × Export)) (n : String) :
    (exportAll xs []).find? (·.1 = n) = (xs.filter (·.1 = n)).getLast? := by
  rw [exportAll_eq_putAllBy]
  exact find?_putAllBy (·.1) xs n

/-! ## Steps -/

/-- What a step exports. -/
def ConfigStep.export? : ConfigStep → Option (String × Export)
  | .addExport name x => some (name, x)
  | _ => none

theorem exports_withDocument {α : Type} {r : Except Error (Document × α)}
    (h : (e.withDocument r).map (·.1) = .ok e') : e'.exports = e.exports := by
  obtain ⟨a, ha⟩ := Document.map_fst_eq_ok h
  obtain ⟨d, -, rfl⟩ := withDocument_eq_ok_iff.1 ha
  rfl

theorem exports_selectorCss (e : Engine) (parent : ContainerId) (text css : String) :
    (e.selectorCss parent text css).1.exports = e.exports := by
  simp only [selectorCss, Engine.selector]
  cases e.document.selector parent text (Css.parseDeclarations css).1 <;> rfl

/-- Only an export changes the exports. -/
theorem Sound.exports_step (h : e.Sound) (s : ConfigStep) :
    (e.step s).exports = exportAll s.export?.toList e.exports := by
  -- What teaches the engine something is known by what it does to the generators.
  by_cases ht : s.Teaches
  · cases s with
    | addUtility u =>
      rw [h.step_addUtility]
      split <;> rfl
    | addRecipe definition =>
      rw [h.step_addRecipe]
      split
      · rfl
      · split <;> rfl
    | useUtility id config =>
      cases hu : e.utility? id with
      | none =>
        rw [step_useUtility_none hu]
        rfl
      | some u =>
        obtain ⟨table, slot, hg⟩ := utility?_eq_some_iff.1 hu
        obtain ⟨bindings, hok⟩ := h.useEntries_eq hg (config.getD u.defaults).entries
        rw [step_useUtility hu hok]
        rfl
    | _ => cases ht
  · unfold Engine.step
    split
    case h_2 he =>
      cases s with
      | addExport name x => cases he
      | _ => rfl
    case h_1 e' he =>
      cases s with
      | addUtility u => cases ht trivial
      | useUtility id config => cases ht trivial
      | addRecipe definition => cases ht trivial
      | addExport name x =>
        obtain rfl := Except.ok.inj he
        rfl
      | selector parent text block => exact exports_withDocument he
      | media parent query => exact exports_withDocument he
      | keyframes name => exact exports_withDocument he
      | selectorCss parent text css =>
        obtain rfl := Except.ok.inj he
        exact e.exports_selectorCss parent text css
      | raw parent css =>
        have he : (e.document.raw parent css).map _ = .ok e' := he
        cases hd : e.document.raw parent css with
        | error cause => simp [hd, Except.map] at he
        | ok d =>
          rw [hd] at he
          obtain rfl := Except.ok.inj he
          rfl
      | generate id token =>
        obtain ⟨ids, hs⟩ := Document.map_fst_eq_ok he
        obtain ⟨g, hg⟩ := Commit.exists_generator hs
        obtain ⟨rfl, -⟩ := Prod.mk.inj (Except.ok.inj ((h.generate_eq hg token).symm.trans hs))
        rfl
      | declareIn scope name value =>
        obtain ⟨reference, hs⟩ := Document.map_fst_eq_ok he
        unfold Engine.declareIn at hs
        split at hs
        · obtain ⟨rfl, -⟩ := Prod.mk.inj (Except.ok.inj hs)
          rfl
        · cases hs
      | _ =>
        obtain rfl := Except.ok.inj he
        rfl

/-! ## Compiled recipes -/

/-- The recipes of an engine are well-formed. -/
def RecipesWellFormed (e : Engine) : Prop :=
  ∀ r slot, Generator.recipe r slot ∈ e.generators → r.WellFormed

/-- What a step registers was compiled, and a recipe stays as it is. -/
theorem Sound.recipesWellFormed_step (h : e.Sound) (hr : e.RecipesWellFormed) (s : ConfigStep) :
    (e.step s).RecipesWellFormed := by
  by_cases ht : s.Teaches
  · cases s with
    | addUtility u =>
      rw [h.step_addUtility]
      split
      · exact hr
      · intro r slot hmem
        exact hr r slot (by simpa using hmem)
    | addRecipe definition =>
      rw [h.step_addRecipe]
      split
      · exact hr
      · rename_i recipe warnings hcompile
        split
        · exact hr
        · intro r slot hmem
          rcases List.mem_append.1 hmem with hmem | hmem
          · exact hr r slot hmem
          · obtain ⟨rfl, -⟩ := Generator.recipe.inj (List.mem_singleton.1 hmem)
            exact Recipe.wellFormed_of_compile hcompile
    | useUtility id config =>
      cases hu : e.utility? id with
      | none =>
        rw [step_useUtility_none hu]
        exact hr
      | some u =>
        obtain ⟨table, slot, hg⟩ := utility?_eq_some_iff.1 hu
        obtain ⟨bindings, hok⟩ := h.useEntries_eq hg (config.getD u.defaults).entries
        rw [step_useUtility hu hok]
        intro r slot' hmem
        rcases List.mem_or_eq_of_mem_set hmem with hmem | heq
        · exact hr r slot' hmem
        · cases heq
    | _ => cases ht
  · intro r slot hmem
    rw [(turns_step e ht).unchanged.1] at hmem
    exact hr r slot hmem

/-! ## Describing exports -/

/-- What is exported is there. -/
def Holds (e : Engine) : Export → Prop
  | .selector id => e.document.contains id = true
  | .recipe id => (e.recipe? id).isSome = true
  | .utility id => (e.utility? id).isSome = true
  | .variable _ => True

instance (e : Engine) (x : Export) : Decidable (e.Holds x) := by
  cases x <;> unfold Holds <;> infer_instance

theorem exists_describe {x : Export} (h : e.Holds x) (name : String) :
    ∃ m, Manifest.describe e name x = some m ∧ m.name = name := by
  cases x with
  | selector id =>
    obtain ⟨c, hc⟩ := Option.isSome_iff_exists.1 h
    exact ⟨_, congrArg (Option.map _) hc, rfl⟩
  | recipe id =>
    obtain ⟨r, hr⟩ := Option.isSome_iff_exists.1 h
    exact ⟨_, congrArg (Option.map _) hr, rfl⟩
  | utility id => exact ⟨_, rfl, rfl⟩
  | «variable» target => exact ⟨_, rfl, rfl⟩

end Engine

namespace Session

variable {s : Session}

/-- What an act exports. -/
def Act.export? : Act → Option (String × Export)
  | .config step => step.export?
  | _ => none

theorem Sound.exports_act (h : s.Sound) (a : Act) :
    (s.act a).engine.exports = Engine.exportAll a.export?.toList s.engine.exports := by
  cases a with
  | config step => exact h.engine.exports_step step
  | commit n tokens =>
    obtain ⟨k, hk, -, hact⟩ := h.act_commit n tokens
    have hkept := congrArg Engine.exports (Commit.tokens_grows hk).engine
    rw [hact]
    exact hkept
  | reset n => rfl

theorem Sound.exports_run (h : s.Sound) (acts : List Act) :
    (s.run acts).engine.exports =
      Engine.exportAll (acts.filterMap Act.export?) s.engine.exports := by
  induction acts generalizing s with
  | nil => rfl
  | cons a acts ih =>
    refine (ih (h.act a)).trans ?_
    rw [h.exports_act a]
    cases ha : a.export? with
    | none =>
      rw [List.filterMap_cons_none ha]
      rfl
    | some p =>
      rw [List.filterMap_cons_some ha]
      rfl

theorem Sound.recipesWellFormed_run (h : s.Sound) (hr : s.engine.RecipesWellFormed)
    (acts : List Act) : (s.run acts).engine.RecipesWellFormed := by
  induction acts generalizing s with
  | nil => exact hr
  | cons a acts ih =>
    refine ih (h.act a) ?_
    cases a with
    | config step => exact h.engine.recipesWellFormed_step hr step
    | commit n tokens =>
      obtain ⟨k, hk, -, hact⟩ := h.act_commit n tokens
      have hkept := congrArg Engine.generators (Commit.tokens_grows hk).engine
      rw [hact]
      intro r slot hmem
      exact hr r slot (hkept ▸ hmem)
    | reset n => exact hr

/-- **A manifest agrees with the engine that it describes.** If all exports are there, each of them is
described, under its own name and in the order of first exports, as what was exported last. A recipe
accepts the options that are listed of it and answers with classes that are listed of it, and the listed
defaults are what it chooses by itself. -/
theorem manifest_agrees (name : String) (mode : EmitMode) (acts : List Act)
    (hheld : ∀ p ∈ ((new name mode).run acts).engine.exports,
      ((new name mode).run acts).engine.Holds p.2) :
    let e := ((new name mode).run acts).engine
    let m := Manifest.ofEngine e
    let exported := acts.filterMap Act.export?
    List.Forall₂ (fun p x => Manifest.describe e p.1 p.2 = some x) e.exports m.exports ∧
    m.exports.map (·.name) = (exported.map (·.1)).eraseDups ∧ (m.exports.map (·.name)).Nodup ∧
    (∀ n, e.export? n = ((exported.filter (·.1 = n)).getLast?).map (·.2)) ∧
    ∀ n id, e.export? n = some (.recipe id) → ∃ base variants compounds defaults,
      .recipe n base variants compounds defaults ∈ m.exports ∧
      Manifest.Agrees (e.resolveRecipe id) base variants compounds defaults := by
  intro e m exported
  have hexports : e.exports = Engine.exportAll exported [] := (sound_new name mode).exports_run acts
  have hfound (n : String) : e.exports.find? (·.1 = n) = (exported.filter (·.1 = n)).getLast? := by
    rw [hexports, Engine.find?_exportAll]
  have hdescribed : List.Forall₂ (fun p x => Manifest.describe e p.1 p.2 = some x ∧ x.name = p.1)
      e.exports m.exports := by
    refine Document.forall₂_filterMap fun p hp => ?_
    obtain ⟨x, hx, hname⟩ := Engine.exists_describe (hheld p hp) p.1
    exact ⟨x, hx, hx, hname⟩
  have hnames : m.exports.map (·.name) = (exported.map (·.1)).eraseDups := by
    have heq : List.Forall₂ (· = ·) (m.exports.map (·.name)) (e.exports.map (·.1)) :=
      List.forall₂_map_left_iff.2 (List.forall₂_map_right_iff.2 (hdescribed.flip.imp fun _ _ h => h.2))
    rw [← Engine.map_fst_exportAll, ← hexports]
    exact List.forall₂_eq_eq_eq ▸ heq
  refine ⟨hdescribed.imp fun _ _ h => h.1, hnames, hnames ▸ nodup_eraseDups _, ?_, ?_⟩
  · intro n
    exact congrArg (Option.map _) (hfound n)
  · intro n id hn
    obtain ⟨⟨n', x⟩, hp, rfl⟩ := Option.map_eq_some_iff.1 hn
    have hmem : (n', .recipe id) ∈ e.exports := List.mem_of_find?_eq_some hp
    obtain rfl : n' = n := by simpa using List.find?_some hp
    obtain ⟨r, hr⟩ := Option.isSome_iff_exists.1 (hheld _ hmem)
    obtain ⟨slot, hg⟩ := Engine.recipe?_eq_some_iff.1 hr
    have hwf : r.WellFormed := (sound_new name mode).recipesWellFormed_run nofun acts r slot
      (List.mem_of_getElem? hg)
    refine ⟨_, _, _, _, ?_, (Manifest.agrees_describe hwf).of_eq_ok_iff fun selection classes =>
      Engine.resolveRecipe_eq_ok_iff hr⟩
    exact List.mem_filterMap.2 ⟨_, hmem, congrArg (Option.map _) hr⟩

/-- A utility is exported, and then a recipe in its place. -/
def tagExports : List Act :=
  [.config (.addRecipe ⟨"tag", ∅,
      [⟨"s", [("l", .ofList [("color", .literal "red")]), ("m", .ofList [("color", .literal "blue")])]⟩],
      [], [("s", "m")]⟩),
    .config (.addUtility (.ofProperty "m" "margin")),
    .config (.addExport "tag" (.utility 1)),
    .config (.selector Document.rootId ".card" ∅),
    .config (.addExport "card" (.selector 1)),
    .commit 0 ["tag"],
    .config (.addExport "gap" (.variable ⟨"gap"⟩)),
    .config (.addExport "tag" (.recipe 0))]

theorem manifest_agrees_tag :
    let e := ((new "app" .onDemand).run tagExports).engine
    let m := Manifest.ofEngine e
    (∀ p ∈ e.exports, e.Holds p.2) ∧ m.exports.map (·.name) = ["tag", "card", "gap"] ∧
    ∃ base variants compounds defaults, .recipe "tag" base variants compounds defaults ∈ m.exports ∧
      Manifest.Agrees (e.resolveRecipe 0) base variants compounds defaults := by
  intro e m
  have hheld : ∀ p ∈ e.exports, e.Holds p.2 := by decide +kernel
  have hexport : e.export? "tag" = some (.recipe 0) := by decide +kernel
  obtain ⟨-, hnames, -, -, hrecipes⟩ := manifest_agrees "app" .onDemand tagExports hheld
  exact ⟨hheld, hnames.trans (by decide +kernel), hrecipes "tag" 0 hexport⟩

end Session

end AtomicCss
