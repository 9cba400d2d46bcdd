import AtomicCss.Proofs.Session.Life
import AtomicCss.Proofs.Session.Ordinals
import Mathlib

/-! # Resolved classes are styled

A recipe is resolved to classes of its own (`Recipe.resolve_subset`), and once it is emitted, at its
registration or for a token, all of its classes are styled for good. A session cache keeps commits
from emitting a recipe again, but only after it was emitted (`dressed_run`). So a component may wear
the resolved classes of a recipe from then on (`resolved_styled`). -/

namespace AtomicCss

/-! ## Resolving -/

namespace Recipe

variable {r : Recipe} {className : String}

theorem chosenClass_mem {d : Dimension} {choice : Option Nat} (hd : d ∈ r.dimensions)
    (h : d.chosenClass choice = some className) : className ∈ r.classes.map (·.1) := by
  obtain ⟨o, -, hclass⟩ := Option.bind_eq_some_iff.1 h
  obtain ⟨option, hoption, rfl⟩ := Option.map_eq_some_iff.1 hclass
  have hmem : (option.className, option.styles) ∈
      r.dimensions.flatMap fun d => d.options.map fun o => (o.className, o.styles) :=
    List.mem_flatMap.2 ⟨d, hd, List.mem_map.2 ⟨option, List.mem_of_getElem? hoption, rfl⟩⟩
  exact List.mem_map.2 ⟨_, List.mem_append_left _ (List.mem_cons_of_mem _ hmem), rfl⟩

/-- A recipe is resolved to classes that it has. -/
theorem resolve_subset {selection : List (String × String)} {classes : List String}
    (h : r.resolve selection = .ok classes) : ∀ c ∈ classes, c ∈ r.classes.map (·.1) := by
  unfold resolve at h
  split at h
  · cases h
  · rename_i chosen _
    obtain rfl := Except.ok.inj h
    intro c hc
    rcases List.mem_append.1 hc with hc | hc
    · rcases List.mem_cons.1 hc with rfl | hc
      · exact List.mem_map.2 ⟨_, List.mem_append_left _ List.mem_cons_self, rfl⟩
      · obtain ⟨compound, hcompound, rfl⟩ := List.mem_map.1 hc
        have hmem := List.mem_map_of_mem (f := fun c : Compound => (c.className, c.styles))
          (List.mem_filter.1 hcompound).1
        exact List.mem_map.2 ⟨_, List.mem_append_right _ hmem, rfl⟩
    · obtain ⟨⟨d, choice⟩, hd, hclass⟩ := List.mem_filterMap.1 hc
      exact chosenClass_mem (List.of_mem_zip hd).1 hclass

end Recipe

theorem Engine.recipe?_eq_some_iff {e : Engine} {id : GeneratorId} {r : Recipe} :
    e.recipe? id = some r ↔ ∃ slot, e.generators[id]? = some (.recipe r slot) := by
  unfold recipe?
  constructor
  · intro h
    split at h
    · rename_i r' slot hg
      obtain rfl := Option.some.inj h
      exact ⟨slot, hg⟩
    · cases h
  · rintro ⟨slot, hg⟩
    rw [hg]

theorem Engine.resolveRecipe_eq_ok_iff {e : Engine} {id : GeneratorId} {r : Recipe}
    (hr : e.recipe? id = some r) {selection : List (String × String)} {classes : List String} :
    e.resolveRecipe id selection = .ok classes ↔ r.resolve selection = .ok classes := by
  rw [resolveRecipe, hr]
  cases hresolve : r.resolve selection <;> simp [hresolve, Except.mapError]

/-- A recipe of a sound engine may be emitted, and then all of its classes are styled. -/
theorem Engine.Sound.carries_recipe {e : Engine} (h : e.Sound) {r : Recipe} {slot : SlotId}
    (hr : .recipe r slot ∈ e.generators) :
    (e.document.absorbAll (Generator.recipe r slot).emissions).Carries r.classes := by
  obtain ⟨hadmits, hsound⟩ := h.absorbAll hr (List.Subset.refl _)
  have hcarries := hadmits.carries hsound.document
  rw [Generator.emissions, Emission.map_listFrom] at hcarries
  exact hcarries

/-! ## Commits -/

namespace Commit

variable {k k' : Commit} {t : String} {id : GeneratorId} {tokens : List String}

/-- Every recipe that was committed is styled. -/
def Dressed (k : Commit) : Prop :=
  ∀ id t r slot, k.cache.contains id t = true → k.engine.generators[id]? = some (.recipe r slot) →
    t ∈ r.classes.map (·.1) → k.engine.document.Carries r.classes

theorem pair_dressed (hs : k.engine.Sound) (h : k.pair t id = .ok k') (hd : k.Dressed) :
    k'.Dressed := by
  intro id' t' r slot hc hg ht
  rw [(pair_ok h).2] at hc
  rw [(pair_ok h).1.engine] at hg
  rcases pair_cases hs h with ⟨he, hcache⟩ | ⟨g, hg', -, -, hsound, hdocument, -⟩
  · rw [he]
    refine hd id' t' r slot ?_ hg ht
    rwa [← hcache, (pair_ok h).2]
  · rcases hc with heq | hold
    · -- the pair is new, so the recipe was just emitted
      obtain ⟨rfl, rfl⟩ := Prod.mk.inj heq
      obtain rfl := Option.some.inj (hg'.symm.trans hg)
      rw [hdocument, Generator.asked_recipe slot ht]
      exact hs.carries_recipe (List.mem_of_getElem? hg)
    · refine (hd id' t' r slot hold hg ht).persists ?_ hsound.document
      rw [hdocument]
      exact .absorbAll _ _

theorem tokens_dressed (hs : k.engine.Sound) (h : k.tokens tokens = .ok k') :
    k.Dressed → k'.Dressed :=
  tokens_rel (R := fun k k' => k.Dressed → k'.Dressed) (fun _ hd => hd)
    (fun h h' hd => h' (h hd)) pair_dressed hs h

end Commit

/-! ## Sessions -/

namespace Session

variable {s : Session} {a : Act} {id : GeneratorId}

/-- The recipes that any compiler has committed are styled. -/
def Dressed (s : Session) : Prop := ∀ n, (Commit.start s.engine (s.caches n)).Dressed

theorem dressed_new (name : String) (mode : EmitMode) : (new name mode).Dressed := by
  intro n id t r slot hc
  cases hc

/-- A committed recipe stays styled while its pair stays committed. -/
theorem Dressed.kept (hd : s.Dressed) (h : s.Sound) (a : Act) {n : Nat} {t : String} {r : Recipe}
    {slot : SlotId} (hc : (s.caches n).contains id t = true)
    (hg : (s.act a).engine.generators[id]? = some (.recipe r slot))
    (ht : t ∈ r.classes.map (·.1)) : (s.act a).engine.document.Carries r.classes := by
  obtain ⟨g, hold, -⟩ := h.known hc
  have hsame : g = .recipe r slot := by
    cases g with
    | utility u table slot' =>
      obtain ⟨entries, hg'⟩ := (h.learns a).utility hold
      cases hg'.symm.trans hg
    | recipe r' slot' => exact Option.some.inj (((h.learns a).recipe hold).symm.trans hg)
  rw [hsame] at hold
  exact (hd n id t r slot hc hold ht).persists (h.persists a) (h.act a).engine.document

theorem Dressed.act (hd : s.Dressed) (h : s.Sound) (a : Act) : (s.act a).Dressed := by
  intro n id t r slot hc hg ht
  cases a with
  | config step => exact hd.kept h (.config step) hc hg ht
  | commit m tokens =>
    by_cases hn : n = m
    · subst hn
      obtain ⟨k, hk, -, hact⟩ := h.act_commit n tokens
      rw [hact] at hc hg ⊢
      exact Commit.tokens_dressed (k := .start s.engine (s.caches n)) h.engine hk (hd n) id t r slot
        (by simpa [Commit.start] using hc) hg ht
    · rw [Commit.start, h.caches_commit_of_ne hn] at hc
      exact hd.kept h (.commit m tokens) hc hg ht
  | reset m =>
    by_cases hn : n = m
    · subst hn
      simp [Session.act, Commit.start, SessionCache.contains_empty] at hc
    · exact hd.kept h (.reset m) (by simpa [Session.act, Commit.start, hn] using hc) hg ht

theorem dressed_run (name : String) (mode : EmitMode) (acts : List Act) :
    ((new name mode).run acts).Dressed := by
  induction acts using List.reverseRecOn with
  | nil => exact dressed_new name mode
  | append_singleton acts a ih =>
    rw [run_concat]
    exact ih.act (sound_run name mode acts) a

/-- The acts that emit a recipe: its registration in eager mode, and one of its classes as a token that
is generated or committed. -/
def Prompts (s : Session) (id : GeneratorId) : Act → Prop
  | .config (.addRecipe definition) =>
    s.engine.mode = .eager ∧ ∃ e', s.engine.addRecipe definition = .ok (e', id)
  | .config (.generate i token) =>
    i = id ∧ ∃ r, s.engine.recipe? id = some r ∧ token ∈ r.classes.map (·.1)
  | .commit _ tokens =>
    ∃ r, s.engine.recipe? id = some r ∧ ∃ token ∈ tokens, token ∈ r.classes.map (·.1)
  | _ => False

/-- Such an act styles all classes of the recipe. -/
theorem Sound.carries_of_prompts (h : s.Sound) (hd : s.Dressed) (hp : s.Prompts id a) :
    ∃ r slot, (s.act a).engine.generators[id]? = some (.recipe r slot) ∧
      (s.act a).engine.document.Carries r.classes := by
  match a, hp with
  | .config (.addRecipe definition), ⟨heager, e', he'⟩ =>
    have hstep : (s.act (.config (.addRecipe definition))).engine = e' :=
      Engine.step_of_ok (by rw [Engine.answer, he']; rfl)
    rw [hstep]
    rw [h.engine.addRecipe_eq] at he'
    split at he'
    · cases he'
    · rename_i r warnings _
      split at he'
      · cases he'
      · obtain ⟨rfl, rfl⟩ := Prod.mk.inj (Except.ok.inj he')
        refine ⟨r, s.engine.document.slots.length, List.getElem?_concat_length, ?_⟩
        rw [heager]
        exact (h.engine.register_recipe r).carries_recipe (by simp)
  | .config (.generate i token), ⟨hi, r, hr, ht⟩ =>
    subst hi
    obtain ⟨slot, hg⟩ := Engine.recipe?_eq_some_iff.1 hr
    have hstep : (s.act (.config (.generate i token))).engine = { s.engine with
        document := s.engine.document.absorbAll (Generator.recipe r slot).emissions } := by
      rw [← Generator.asked_recipe slot ht]
      exact Engine.step_of_ok (by rw [Engine.answer, h.engine.generate_eq hg]; rfl)
    rw [hstep]
    exact ⟨r, slot, hg, h.engine.carries_recipe (List.mem_of_getElem? hg)⟩
  | .commit n tokens, ⟨r, hr, t, ht, htr⟩ =>
    obtain ⟨slot, hg⟩ := Engine.recipe?_eq_some_iff.1 hr
    have hg' := (h.learns (.commit n tokens)).recipe hg
    have hcached : ((s.act (.commit n tokens)).caches n).contains id t = true := by
      rw [h.contains_commit, Engine.mem_generatorsFor, h.engine.indexed]
      exact .inl ⟨ht, _, hg, htr⟩
    exact ⟨r, slot, hg', (hd.act h (.commit n tokens)) n id t r slot hcached hg' htr⟩

/-- The main result. Once a recipe was registered in eager mode, or one of its classes was generated or
committed, and whatever has happened before and after, all classes that the recipe is resolved to are
classes that it has, and each is the text of a selector of the root with all properties of the class. -/
theorem resolved_styled {name : String} {mode : EmitMode} {before after : List Act} {a : Act}
    {id : GeneratorId} (h : ((new name mode).run before).Prompts id a)
    (hs : s = (new name mode).run (before ++ a :: after)) :
    ∃ r, s.engine.recipe? id = some r ∧
      ∀ selection classes, s.engine.resolveRecipe id selection = .ok classes → ∀ c ∈ classes,
        c ∈ r.classes.map (·.1) ∧ ∃ container C,
          s.engine.document.findSelector? Document.rootId (Css.classSelector c) = some container ∧
          s.engine.document.get? container = some C ∧
          ∀ styles, (c, styles) ∈ r.classes → ∀ p ∈ styles.properties, p ∈ C.block.properties := by
  have hbefore := sound_run name mode before
  obtain ⟨r, slot, hg, hcarries⟩ := hbefore.carries_of_prompts (dressed_run name mode before) h
  have hafter := (hbefore.act a).run after
  have hg := (hbefore.act a).recipe_run hg after
  have hcarries :=
    hcarries.persists ((hbefore.act a).persists_run after) hafter.engine.document
  obtain rfl : s = (((new name mode).run before).act a).run after := hs.trans (run_append _ _ _)
  have hr := Engine.recipe?_eq_some_iff.2 ⟨slot, hg⟩
  refine ⟨r, hr, ?_⟩
  intro selection classes hresolve c hc
  have hmem := Recipe.resolve_subset ((Engine.resolveRecipe_eq_ok_iff hr).1 hresolve) c hc
  refine ⟨hmem, ?_⟩
  obtain ⟨⟨c, styles⟩, hstyles, rfl⟩ := List.mem_map.1 hmem
  obtain ⟨container, C, hfind, hget, -⟩ := hcarries _ hstyles
  refine ⟨container, C, hfind, hget, ?_⟩
  intro styles' hstyles' p hp
  -- a text leads to one container, which carries all blocks of its class
  obtain ⟨container', C', hfind', hget', hproperties⟩ := hcarries _ hstyles'
  obtain rfl := Option.some.inj (hfind.symm.trans hfind')
  obtain rfl := Option.some.inj (hget.symm.trans hget')
  exact hproperties p hp

/-- A recipe for a card of two sizes. -/
def card : RecipeDefinition := ⟨"card", Block.ofList [("gap", .literal "2px")],
  [⟨"size", [("sm", ∅), ("lg", Block.ofList [("color", .literal "red")])]⟩],
  [⟨[("size", "lg")], Block.ofList [("margin", .literal "1px")]⟩], [("size", "lg")]⟩

/-- What happens to an engine in which the card is committed before its selector is written to. -/
def worn : List Act :=
  [.config (.addRecipe card), .commit 0 ["card"], .reset 0,
    .config (.selector Document.rootId ".card--size-lg" ∅)]

theorem resolved_styled_worn :
    ((new "app" .onDemand).run (worn.take 1)).Prompts 0 (.commit 0 ["card"]) ∧
    ((new "app" .onDemand).run worn).engine.resolveRecipe 0 [] =
      .ok ["card", "card--size-lg", "card--size-lg"] ∧
    ∃ container C, ((new "app" .onDemand).run worn).engine.document.findSelector? Document.rootId
        (Css.classSelector "card--size-lg") = some container ∧
      ((new "app" .onDemand).run worn).engine.document.get? container = some C ∧
      "color" ∈ C.block.properties ∧ "margin" ∈ C.block.properties := by
  let classes : List (String × Block) := [("card", Block.ofList [("gap", .literal "2px")]),
    ("card--size-sm", ∅), ("card--size-lg", Block.ofList [("color", .literal "red")]),
    ("card--size-lg", Block.ofList [("margin", .literal "1px")])]
  have hprompts : ((new "app" .onDemand).run (worn.take 1)).Prompts 0 (.commit 0 ["card"]) := by
    have hclasses : (((new "app" .onDemand).run (worn.take 1)).engine.recipe? 0).map
        Recipe.classes = some classes := by decide +kernel
    obtain ⟨r, hr, hclasses⟩ := Option.map_eq_some_iff.1 hclasses
    exact ⟨r, hr, "card", List.mem_singleton_self _, by rw [hclasses]; decide⟩
  have hworn : (new "app" .onDemand).run worn =
      (new "app" .onDemand).run (worn.take 1 ++ .commit 0 ["card"] :: worn.drop 2) := rfl
  have hresolve : ((new "app" .onDemand).run worn).engine.resolveRecipe 0 [] =
      .ok ["card", "card--size-lg", "card--size-lg"] := by decide +kernel
  have hclasses : (((new "app" .onDemand).run worn).engine.recipe? 0).map Recipe.classes =
      some classes := by decide +kernel
  obtain ⟨r, hr, hstyled⟩ := resolved_styled hprompts hworn
  rw [hr] at hclasses
  have hclasses : r.classes = classes := Option.some.inj hclasses
  obtain ⟨-, container, C, hfind, hget, hproperties⟩ :=
    hstyled [] _ hresolve "card--size-lg" (by decide)
  refine ⟨hprompts, hresolve, container, C, hfind, hget, ?_, ?_⟩
  · refine hproperties (Block.ofList [("color", .literal "red")]) ?_ "color" (by decide +kernel)
    rw [hclasses]
    simp [classes]
  · refine hproperties (Block.ofList [("margin", .literal "1px")]) ?_ "margin" (by decide +kernel)
    rw [hclasses]
    simp [classes]

end Session

end AtomicCss
