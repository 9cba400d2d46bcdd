import AtomicCss.Proofs.Document.Declared
import AtomicCss.Proofs.Engine.Places
import AtomicCss.Proofs.Session.Sharing
import Mathlib

/-! # What a config writes

A config writes to the selector with a text by selectors of its own and by classes. The generators, and
so what is written, are the same in both emit modes (`Peers.writtenIn_eq`). But a class that is used is
there at once only in eager mode (`Sound.declared_run`). -/

namespace AtomicCss

/-! ## Writings -/

/-- Who writes: a selector of the config, a class that the config uses, or a class that the config
generates for a token. -/
inductive Writing.Source
  | selector
  | use
  | token
  deriving DecidableEq

/-- A block that is written to a selector. -/
structure Writing where
  source : Writing.Source
  block : Block

/-- The blocks of the classes whose selectors have a text. -/
def blocksOf (text : String) (classes : List (String × Block)) : List Block :=
  (classes.filter fun c => Text.trimmed (Css.classSelector c.1) = Text.trimmed text).map (·.2)

theorem blocksOf_append (text : String) (cs cs' : List (String × Block)) :
    blocksOf text (cs ++ cs') = blocksOf text cs ++ blocksOf text cs' := by
  rw [blocksOf, List.filter_append, List.map_append]
  rfl

theorem map_block_filter (text : String) (xs : List Emission) :
    (xs.filter (·.text = Text.trimmed text)).map (·.block) =
      blocksOf text (xs.map fun x => (x.className, x.block)) := by
  induction xs with
  | nil => rfl
  | cons x xs ih =>
    have htext : x.text = Text.trimmed (Css.classSelector x.className) := rfl
    unfold blocksOf at ih ⊢
    rw [List.map_cons, List.filter_cons, List.filter_cons, ← htext]
    split
    · rw [List.map_cons, List.map_cons, ih]
    · exact ih

namespace Writing

variable {ws ws' : List Writing}

/-- Blocks that one source writes. -/
def of (source : Source) (blocks : List Block) : List Writing := blocks.map fun b => ⟨source, b⟩

/-- What a selector of the config writes to the selector of the root with a text. -/
def ofSelector (text : String) (parent : ContainerId) (t : String) (block : Block) : List Writing :=
  if parent = Document.rootId ∧ Text.trimmed text = Text.trimmed t then of .selector [block] else []

theorem ofSelector_of_ne {text t : String} {parent : ContainerId} {block : Block}
    (h : parent ≠ Document.rootId) : ofSelector text parent t block = [] :=
  if_neg fun h' => h h'.1

/-- The blocks that are there once the config is run: on demand, those of used classes are not. -/
def seen (mode : EmitMode) (ws : List Writing) : List Block :=
  (ws.filter fun w => mode = .eager ∨ w.source ≠ .use).map (·.block)

/-- The blocks of classes. -/
def made (ws : List Writing) : List Block :=
  (ws.filter fun w => w.source ≠ .selector).map (·.block)

theorem seen_append (mode : EmitMode) : seen mode (ws ++ ws') = seen mode ws ++ seen mode ws' := by
  rw [seen, List.filter_append, List.map_append]
  rfl

theorem made_append : made (ws ++ ws') = made ws ++ made ws' := by
  rw [made, List.filter_append, List.map_append]
  rfl

theorem map_block_of (source : Source) (bs : List Block) : (of source bs).map (·.block) = bs := by
  rw [of, List.map_map]
  exact List.map_id bs

theorem seen_of {mode : EmitMode} {source : Source} (h : mode = .eager ∨ source ≠ .use)
    (bs : List Block) : seen mode (of source bs) = bs := by
  rw [seen, List.filter_eq_self.2, map_block_of]
  intro w hw
  obtain ⟨b, -, rfl⟩ := List.mem_map.1 hw
  exact decide_eq_true h

theorem seen_use_onDemand (bs : List Block) : seen .onDemand (of .use bs) = [] := by
  rw [seen, List.filter_eq_nil_iff.2, List.map_nil]
  intro w hw
  obtain ⟨b, -, rfl⟩ := List.mem_map.1 hw
  simp

theorem made_of {source : Source} (h : source ≠ .selector) (bs : List Block) :
    made (of source bs) = bs := by
  rw [made, List.filter_eq_self.2, map_block_of]
  intro w hw
  obtain ⟨b, -, rfl⟩ := List.mem_map.1 hw
  exact decide_eq_true h

theorem made_ofSelector (text : String) (parent : ContainerId) (t : String) (block : Block) :
    made (ofSelector text parent t block) = [] := by
  unfold ofSelector
  split <;> rfl

end Writing

theorem Document.length_slots_absorbAll {d : Document} (xs : List Emission) :
    (d.absorbAll xs).slots.length = d.slots.length := by
  induction xs generalizing d with
  | nil => rfl
  | cons x xs ih =>
    have hparents := congrArg List.length (parents_absorb (d := d) (x := x))
    rw [List.length_map, List.length_map] at hparents
    exact ih.trans hparents

theorem Document.length_slots_used {d : Document} (mode : EmitMode) (xs : List Emission) :
    (d.used mode xs).slots.length = d.slots.length := by
  cases mode with
  | eager => exact length_slots_absorbAll xs
  | onDemand => rfl

/-- What a selector declares after a config has used some classes. -/
theorem Document.AdmitsAll.declared_used {d : Document} {xs : List Emission} (h : d.AdmitsAll xs)
    (mode : EmitMode) (text : String) : (d.used mode xs).declared text = (d.declared text).mergeAll
      (Writing.seen mode (Writing.of .use (blocksOf text (xs.map fun x => (x.className, x.block))))) := by
  cases mode with
  | eager =>
    rw [Writing.seen_of (.inl rfl), ← map_block_filter]
    exact h.declared_absorbAll text
  | onDemand =>
    rw [Writing.seen_use_onDemand]
    rfl

theorem Utility.map_uses (u : Utility) (slot : SlotId) (table : ValueTable)
    (entries : List (String × Value)) : (u.uses slot table entries).map
      (fun x => (x.className, x.block)) = entries.map fun p => (u.classOf p.1, u.style p.1 p.2) := by
  induction entries generalizing table with
  | nil => rfl
  | cons entry entries ih =>
    rw [uses, List.map_cons, List.map_cons, ih]
    rfl

namespace Engine

variable {e e' l : Engine} {id : Nat} {text : String} {ws : List Writing}

/-! ## What the steps write -/

/-- The steps that work at the root and leave the mode alone. -/
def ConfigStep.Outermost : ConfigStep → Prop
  | .setMode _ => False
  | .selector parent .. | .selectorCss parent .. | .media parent _ | .raw parent _ =>
    parent = Document.rootId
  | _ => True

theorem ConfigStep.Outermost.ne_setMode {s : ConfigStep} (h : s.Outermost) (mode : EmitMode) :
    s ≠ .setMode mode := by
  rintro rfl
  cases h

/-- What a step writes to the selector of the root with a text, in eager mode at once. -/
def writtenBy (e : Engine) (text : String) : ConfigStep → List Writing
  | .selector parent t block => Writing.ofSelector text parent t block
  | .selectorCss parent t css => Writing.ofSelector text parent t (Css.parseDeclarations css).1
  | .useUtility id config =>
    (e.utility? id).elim [] fun u => Writing.of .use (blocksOf text
      ((config.getD u.defaults).entries.map fun p => (u.classOf p.1, u.style p.1 p.2)))
  | .addRecipe definition =>
    match Recipe.compile definition with
    | .ok (recipe, _) =>
      if e.hasGenerator recipe.name then [] else Writing.of .use (blocksOf text recipe.classes)
    | .error _ => []
  | .generate id token =>
    Writing.of .token (blocksOf text ((e.askedFor (id, token)).map fun x => (x.className, x.block)))
  | _ => []

/-- What the steps of a config write, in turn. -/
def writtenIn (e : Engine) (text : String) : List ConfigStep → List Writing
  | [] => []
  | s :: steps => e.writtenBy text s ++ (e.step s).writtenIn text steps

/-- A step from `e` to `e'` that leaves the generators alone and writes at once, in both modes. -/
structure Plain (text : String) (ws : List Writing) (e e' : Engine) : Prop where
  mode : e'.mode = e.mode
  generators : e'.generators = e.generators
  slots : e'.document.slots.length = e.document.slots.length
  declared : e'.document.declared text =
    (e.document.declared text).mergeAll (Writing.seen e.mode ws)

namespace Plain

theorem refl (text : String) (e : Engine) : Plain text [] e e := ⟨rfl, rfl, rfl, rfl⟩

/-- A call of the document that leaves its slots alone. -/
theorem withDocument {d : Document} (hs : d.slots = e.document.slots)
    (hd : d.declared text = (e.document.declared text).mergeAll (Writing.seen e.mode ws))
    (notices : List Warning) : Plain text ws e { e with document := d, notices := notices } :=
  ⟨rfl, rfl, congrArg List.length hs, hd⟩

theorem selector (h : e.Sound) {parent : ContainerId} {t : String} {block : Block} {d : Document}
    (hs : e.document.selector parent t block = .ok (d, id)) (notices : List Warning) :
    Plain text (Writing.ofSelector text parent t block) e
      { e with document := d, notices := notices } := by
  apply withDocument (Document.keeps_selector hs).2
  by_cases hp : parent = Document.rootId
  · subst hp
    obtain ⟨d', id', hd, -, hdeclared⟩ := h.document.declared_selector t block
    obtain ⟨rfl, -⟩ := Prod.mk.inj (Except.ok.inj (hs.symm.trans hd))
    rw [hdeclared, Writing.ofSelector]
    by_cases ht : Text.trimmed text = Text.trimmed t
    · rw [if_pos ht, if_pos ⟨rfl, ht⟩, Writing.seen_of (.inr (by decide))]
      rfl
    · rw [if_neg ht, if_neg (fun h => ht h.2)]
      rfl
  · rw [Writing.ofSelector_of_ne hp, h.document.declared_selector_of_ne hp hs]
    rfl

/-- A container that is no selector. -/
theorem nested (h : e.Sound) {parent : ContainerId} {kind : Kind} {d : Document}
    (hs : e.document.nested parent kind = .ok (d, id)) (text : String) :
    Plain text [] e { e with document := d } :=
  withDocument (Document.keeps_nested hs).2 (h.document.declared_nested hs text) e.notices

theorem raw (h : e.Sound) {parent : ContainerId} {css : String} {d : Document}
    (hs : e.document.raw parent css = .ok d) (text : String) :
    Plain text [] e { e with document := d } :=
  withDocument (Document.keeps_raw hs).2 (h.document.declared_raw hs text) e.notices

end Plain

/-- A step that neither teaches anything nor sets the mode. -/
theorem Sound.plain_step (h : e.Sound) {s : ConfigStep} (hm : ∀ mode, s ≠ .setMode mode)
    (ht : ¬ s.Teaches) (text : String) : Plain text (e.writtenBy text s) e (e.step s) := by
  cases s with
  | setMode mode => cases hm mode rfl
  | declare name value => exact ⟨rfl, rfl, rfl, rfl⟩
  | declareIn scope name value =>
    by_cases hscope : e.document.contains scope = true
    · rw [step_declareIn hscope]
      exact ⟨rfl, rfl, rfl, rfl⟩
    · rw [step_of_error (by rw [answer, declareIn, if_neg hscope]; rfl)]
      exact .refl text e
  | selector parent t block =>
    cases hs : e.document.selector parent t block with
    | ok result =>
      rw [step_selector hs]
      exact .selector h hs e.notices
    | error cause =>
      rw [step_of_error (by rw [answer, Engine.selector, hs]; rfl), writtenBy,
        Writing.ofSelector_of_ne (h.document.ne_root_of_selector hs)]
      exact .refl text e
  | selectorCss parent t css =>
    cases hs : e.document.selector parent t (Css.parseDeclarations css).1 with
    | ok result =>
      rw [step_selectorCss hs]
      exact .selector h hs _
    | error cause =>
      have hstep : e.step (.selectorCss parent t css) = (e.selectorCss parent t css).1 :=
        step_of_ok rfl
      rw [writtenBy, Writing.ofSelector_of_ne (h.document.ne_root_of_selector hs), hstep,
        Engine.selectorCss]
      simp only [Engine.selector, hs]
      exact ⟨rfl, rfl, rfl, rfl⟩
  | media parent query =>
    cases hs : e.document.nested parent (.media (Text.trimmed query)) with
    | ok result =>
      rw [step_of_ok (by rw [answer, Engine.media, Document.media, hs]; rfl)]
      exact .nested h hs text
    | error cause =>
      rw [step_of_error (by rw [answer, Engine.media, Document.media, hs]; rfl)]
      exact .refl text e
  | keyframes name =>
    cases hs : e.document.nested Document.rootId (.keyframes (Text.trimmed name)) with
    | ok result =>
      rw [step_keyframes hs]
      exact .nested h hs text
    | error cause =>
      rw [step_of_error (by rw [answer, Engine.keyframes, Document.keyframes, hs]; rfl)]
      exact .refl text e
  | raw parent css =>
    cases hs : e.document.raw parent css with
    | ok d =>
      rw [step_raw hs]
      exact .raw h hs text
    | error cause =>
      rw [step_of_error (by rw [answer, Engine.raw, hs]; rfl)]
      exact .refl text e
  | generate id token =>
    rw [writtenBy, askedFor]
    cases hg : e.generators[id]? with
    | none =>
      rw [step_of_error (by rw [answer, Engine.generate, hg]; rfl)]
      exact .refl text e
    | some g =>
      have hasked : g.asked token ⊆ g.emissions := Generator.asked_subset
      have hadmits := (h.absorbAll (List.mem_of_getElem? hg) hasked).1
      rw [step_of_ok (by rw [answer, h.generate_eq hg token]; rfl)]
      refine ⟨rfl, rfl, ?_, ?_⟩
      · exact Document.length_slots_absorbAll _
      · rw [Option.elim_some, Writing.seen_of (.inr (by decide)), ← map_block_filter]
        exact hadmits.declared_absorbAll text
  | addExport name x => exact ⟨rfl, rfl, rfl, rfl⟩
  | clearWarnings => exact ⟨rfl, rfl, rfl, rfl⟩
  | addUtility u => cases ht trivial
  | useUtility id config => cases ht trivial
  | addRecipe definition => cases ht trivial

/-- **One step** writes at once what its mode lets it write, and keeps the mode unless it sets it. -/
theorem Sound.declared_step (h : e.Sound) (s : ConfigStep) (text : String) :
    ((∀ mode, s ≠ .setMode mode) → (e.step s).mode = e.mode) ∧ (e.step s).document.declared text =
      (e.document.declared text).mergeAll (Writing.seen e.mode (e.writtenBy text s)) := by
  by_cases ht : s.Teaches
  · cases s with
    | addUtility u =>
      rw [h.step_addUtility]
      split
      · exact ⟨fun _ => rfl, rfl⟩
      · exact ⟨fun _ => rfl, h.document.declared_reserved Document.rootId text⟩
    | useUtility id config =>
      rw [writtenBy]
      cases hu : e.utility? id with
      | none =>
        rw [step_useUtility_none hu]
        exact ⟨fun _ => rfl, rfl⟩
      | some u =>
        obtain ⟨table, slot, hg⟩ := utility?_eq_some_iff.1 hu
        let entries := (config.getD u.defaults).entries
        obtain ⟨bindings, hok⟩ := h.useEntries_eq hg entries
        have hdeclared := (h.admitsAll_uses hg entries).declared_used e.mode text
        rw [Utility.map_uses] at hdeclared
        rw [step_useUtility hu hok]
        exact ⟨fun _ => rfl, hdeclared⟩
    | addRecipe definition =>
      rw [writtenBy, h.step_addRecipe]
      cases Recipe.compile definition with
      | error cause => exact ⟨fun _ => rfl, rfl⟩
      | ok compiled =>
        obtain ⟨recipe, warnings⟩ := compiled
        let g : Generator := .recipe recipe e.document.slots.length
        have hadmits := ((h.register_recipe recipe).absorbAll (g := g) (by simp [g])
          (List.Subset.refl _)).1
        have hdeclared := hadmits.declared_used e.mode text
        rw [h.document.declared_reserved, Generator.emissions, Emission.map_listFrom] at hdeclared
        dsimp only
        split
        · exact ⟨fun _ => rfl, rfl⟩
        · exact ⟨fun _ => rfl, hdeclared⟩
    | _ => cases ht
  · by_cases hm : ∃ mode, s = .setMode mode
    · obtain ⟨mode, rfl⟩ := hm
      exact ⟨fun hne => absurd rfl (hne mode), rfl⟩
    · have hplain := h.plain_step (fun mode hs => hm ⟨mode, hs⟩) ht text
      exact ⟨fun _ => hplain.mode, hplain.declared⟩

/-- **A whole config** does. -/
theorem Sound.declared_run (h : e.Sound) {steps : List ConfigStep} (ho : ∀ s ∈ steps, s.Outermost)
    (text : String) : (e.run steps).document.declared text =
      (e.document.declared text).mergeAll (Writing.seen e.mode (e.writtenIn text steps)) := by
  induction steps generalizing e with
  | nil => rfl
  | cons s steps ih =>
    obtain ⟨hmode, hdeclared⟩ := h.declared_step s text
    have hmode := hmode (ho s List.mem_cons_self).ne_setMode
    have hrest := ih (h.step s) fun x hx => ho x (List.mem_cons_of_mem _ hx)
    rw [hmode, hdeclared, ← Block.mergeAll_append, ← Writing.seen_append] at hrest
    exact hrest

/-! ## The same writings in both modes -/

/-- Engines that know the same generators, and give the same slot to the next one. -/
structure Peers (e l : Engine) : Prop where
  generators : l.generators = e.generators
  slots : l.document.slots.length = e.document.slots.length

namespace Peers

theorem utility?_eq (h : Peers e l) (id : GeneratorId) : l.utility? id = e.utility? id := by
  rw [utility?, utility?, h.generators]

theorem hasGenerator_eq (h : Peers e l) (name : String) : l.hasGenerator name = e.hasGenerator name := by
  rw [hasGenerator, hasGenerator, h.generators]

theorem writtenBy_eq (h : Peers e l) (text : String) (s : ConfigStep) :
    l.writtenBy text s = e.writtenBy text s := by
  have hasked (p : GeneratorId × String) : l.askedFor p = e.askedFor p := by
    rw [askedFor, askedFor, h.generators]
  cases s <;> simp only [writtenBy, h.utility?_eq, h.hasGenerator_eq, hasked]

/-- One step, whatever it emits. -/
theorem step (h : Peers e l) (he : e.Sound) (hl : l.Sound) {s : ConfigStep} (ho : s.Outermost) :
    Peers (e.step s) (l.step s) := by
  have hreserved (d : Document) :
      (d.reserved Document.rootId).slots.length = d.slots.length + 1 := by
    simp [Document.reserved]
  by_cases ht : s.Teaches
  · cases s with
    | addUtility u =>
      rw [he.step_addUtility, hl.step_addUtility, h.hasGenerator_eq]
      split
      · exact h
      · refine ⟨?_, ?_⟩
        · rw [h.generators, h.slots]
        · rw [hreserved, hreserved, h.slots]
    | useUtility id config =>
      cases hu : e.utility? id with
      | none =>
        rw [step_useUtility_none hu, step_useUtility_none ((h.utility?_eq id).trans hu)]
        exact h
      | some u =>
        obtain ⟨table, slot, hg⟩ := utility?_eq_some_iff.1 hu
        have hg' : l.generators[id]? = some (.utility u table slot) := by rw [h.generators, hg]
        let entries := (config.getD u.defaults).entries
        obtain ⟨bindings, hok⟩ := he.useEntries_eq hg entries
        obtain ⟨bindings', hok'⟩ := hl.useEntries_eq hg' entries
        rw [step_useUtility hu hok, step_useUtility ((h.utility?_eq id).trans hu) hok']
        refine ⟨?_, ?_⟩
        · rw [h.generators]
        · rw [Document.length_slots_used, Document.length_slots_used, h.slots]
    | addRecipe definition =>
      rw [he.step_addRecipe, hl.step_addRecipe]
      cases Recipe.compile definition with
      | error cause => exact h
      | ok compiled =>
        simp only [h.hasGenerator_eq]
        split
        · exact h
        · refine ⟨?_, ?_⟩
          · rw [h.generators, h.slots]
          · rw [Document.length_slots_used, Document.length_slots_used, hreserved, hreserved,
              h.slots]
    | _ => cases ht
  · have hplain := he.plain_step ho.ne_setMode ht ""
    have hplain' := hl.plain_step ho.ne_setMode ht ""
    refine ⟨?_, ?_⟩
    · rw [hplain'.generators, h.generators, hplain.generators]
    · rw [hplain'.slots, h.slots, hplain.slots]

/-- **A whole config** leaves the engines peers, and writes the same through both. -/
theorem run (h : Peers e l) (he : e.Sound) (hl : l.Sound) {steps : List ConfigStep}
    (ho : ∀ s ∈ steps, s.Outermost) (text : String) :
    Peers (e.run steps) (l.run steps) ∧ l.writtenIn text steps = e.writtenIn text steps := by
  induction steps generalizing e l with
  | nil => exact ⟨h, rfl⟩
  | cons s steps ih =>
    have hstep := h.step he hl (ho s List.mem_cons_self)
    obtain ⟨hrun, hrest⟩ := ih hstep (he.step s) (hl.step s) fun x hx =>
      ho x (List.mem_cons_of_mem _ hx)
    refine ⟨hrun, ?_⟩
    rw [writtenIn, writtenIn, h.writtenBy_eq, hrest]

end Peers

end Engine

end AtomicCss
