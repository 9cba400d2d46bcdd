import AtomicCss.Proofs.Session.Again

/-! # Changes of the emit mode

Two kinds of steps read the mode of an engine: the registration of a recipe, and every use of a utility.
With anything else a change of the mode commutes (`Session.Sound.act_setMode`), the registration of a
utility included. So a utility does not keep the mode in which it was registered: a use follows the mode
that was set last, and what runs answer and emit that differ in changes of the mode alone is told by the
modes in force at registrations of recipes and at uses (`Session.uses_follow_mode`). -/

namespace AtomicCss

namespace Engine

variable {e : Engine} {id : GeneratorId}

/-! ## What the mode does not matter for -/

theorem setMode_self (e : Engine) : e.setMode e.mode = e := rfl

/-- The answer of an operation, with another mode in the engine that it leads to. -/
def inMode {α : Type} (mode : EmitMode) (r : Except Error (Engine × α)) : Except Error (Engine × α) :=
  r.map fun p => (p.1.setMode mode, p.2)

theorem map_fst_inMode {α : Type} (mode : EmitMode) (r : Except Error (Engine × α)) :
    (inMode mode r).map (·.1) = (r.map (·.1)).map (·.setMode mode) := by
  cases r <;> rfl

theorem withDocument_setMode {α : Type} (mode : EmitMode) (r : Except Error (Document × α)) :
    (e.setMode mode).withDocument r = inMode mode (e.withDocument r) := by
  cases r <;> rfl

theorem declareIn_setMode (mode : EmitMode) (scope : ContainerId) (name : String) (value : Value) :
    (e.setMode mode).declareIn scope name value = inMode mode (e.declareIn scope name value) := by
  unfold declareIn
  by_cases hscope : e.document.contains scope = true
  · rw [if_pos hscope]
    exact if_pos hscope
  · rw [if_neg hscope]
    exact if_neg hscope

theorem addUtility_setMode (mode : EmitMode) (u : Utility) :
    (e.setMode mode).addUtility u = inMode mode (e.addUtility u) := by
  have htaken : (e.setMode mode).hasGenerator u.name = e.hasGenerator u.name := rfl
  unfold addUtility
  rw [htaken]
  split
  · rfl
  · split
    · rfl
    · simp only [setMode]
      cases e.document.reserveSlot Document.rootId <;> rfl

theorem generate_setMode (mode : EmitMode) (token : String) :
    (e.setMode mode).generate id token = inMode mode (e.generate id token) := by
  simp only [generate, setMode]
  cases e.generators[id]? with
  | none => rfl
  | some g =>
    simp only []
    cases g.classes.findIdx? (·.1 = token) with
    | none => rfl
    | some ordinal => cases g <;> exact withDocument_setMode mode _

theorem selectorCss_setMode (mode : EmitMode) (parent : ContainerId) (text css : String) :
    ((e.setMode mode).selectorCss parent text css).1 =
      (e.selectorCss parent text css).1.setMode mode := by
  simp only [selectorCss, Engine.selector, setMode]
  cases e.document.selector parent text (Css.parseDeclarations css).1 <;> rfl

/-- The steps that neither read nor set the mode. -/
def ConfigStep.Modeless : ConfigStep → Prop
  | .setMode _ | .useUtility .. | .addRecipe _ => False
  | _ => True

theorem answer_setMode {s : ConfigStep} (hs : s.Modeless) (mode : EmitMode) :
    (e.setMode mode).answer s = (e.answer s).map (·.setMode mode) := by
  cases s with
  | setMode mode => cases hs
  | useUtility id config => cases hs
  | addRecipe definition => cases hs
  | declare name value => rfl
  | declareIn scope name value =>
    rw [answer, answer, declareIn_setMode, map_fst_inMode]
  | selector parent text block =>
    exact (congrArg _ (withDocument_setMode mode _)).trans (map_fst_inMode mode _)
  | selectorCss parent text css =>
    exact congrArg Except.ok (selectorCss_setMode mode parent text css)
  | media parent query =>
    exact (congrArg _ (withDocument_setMode mode _)).trans (map_fst_inMode mode _)
  | keyframes name =>
    exact (congrArg _ (withDocument_setMode mode _)).trans (map_fst_inMode mode _)
  | raw parent css =>
    simp only [answer, Engine.raw, setMode]
    cases e.document.raw parent css <;> rfl
  | addUtility u => rw [answer, answer, addUtility_setMode, map_fst_inMode]
  | generate id token => rw [answer, answer, generate_setMode, map_fst_inMode]
  | addExport name x => rfl
  | clearWarnings => rfl

theorem step_setMode {s : ConfigStep} (hs : s.Modeless) (mode : EmitMode) :
    (e.setMode mode).step s = (e.step s).setMode mode := by
  rw [step, step, answer_setMode hs]
  cases e.answer s <;> rfl

/-! ## What it matters for -/

/-- A use answers with one binding for each entry. In eager mode all of them have containers, and on
demand none has, and then the document stays as it is. -/
theorem Sound.useUtility_in_mode (h : e.Sound) {u : Utility} (hu : e.utility? id = some u)
    (config : Option ValueTable) : ∃ e' bindings, e.useUtility id config = .ok (e', bindings) ∧
      bindings.map (·.suffix) = (config.getD u.defaults).entries.map (·.1) ∧
      (∀ b ∈ bindings, b.container.isSome = true ↔ e.mode = .eager) ∧
      (e.mode = .onDemand → e'.document = e.document) := by
  obtain ⟨table, slot, hg⟩ := utility?_eq_some_iff.1 hu
  obtain ⟨bindings, hok⟩ := h.useEntries_eq hg (config.getD u.defaults).entries
  refine ⟨_, bindings, by rw [useUtility_eq, hu]; exact hok, ?_, ?_, ?_⟩
  · rw [h.bindings_eq hu hok, List.map_map]
    rfl
  · intro b hb
    cases hm : e.mode with
    | onDemand =>
      rw [useEntries_onDemand hm hu hok] at hb
      obtain ⟨p, -, rfl⟩ := List.mem_map.1 hb
      simp
    | eager =>
      obtain ⟨e₁, bindings₁, hok₁, -, -, -, hemitted⟩ := h.useEntries_eager hm hu _
      obtain ⟨-, rfl⟩ := Prod.mk.inj (Except.ok.inj (hok₁.symm.trans hok))
      obtain ⟨c, hc, -⟩ := (hemitted b hb).container
      simp [hc]
  · intro hm
    show e.document.used e.mode _ = e.document
    rw [hm]
    rfl

end Engine

/-! ## Commits -/

/-- Folds of steps that commute with a change of the state. -/
theorem foldlM_commute {α β ε : Type} {f : β → α → Except ε β} {g : β → β}
    (step : ∀ b a, f (g b) a = (f b a).map g) (l : List α) (b : β) :
    l.foldlM f (g b) = (l.foldlM f b).map g := by
  induction l generalizing b with
  | nil => rfl
  | cons a l ih =>
    rw [List.foldlM_cons, List.foldlM_cons, step]
    cases f b a with
    | error cause => rfl
    | ok b₁ => exact ih b₁

namespace Commit

def setMode (k : Commit) (mode : EmitMode) : Commit := { k with engine := k.engine.setMode mode }

theorem pair_setMode (k : Commit) (mode : EmitMode) (t : String) (id : GeneratorId) :
    (k.setMode mode).pair t id = (k.pair t id).map (·.setMode mode) := by
  simp only [pair, setMode, Engine.generate_setMode]
  split
  · rfl
  · cases k.engine.generate id t <;> rfl

theorem token_setMode (k : Commit) (mode : EmitMode) (t : String) :
    (k.setMode mode).token t = (k.token t).map (·.setMode mode) :=
  foldlM_commute (f := fun (k : Commit) id => k.pair t id) (g := fun k : Commit => k.setMode mode)
    (fun k id => k.pair_setMode mode t id) (k.engine.generatorsFor t)
    { k with report := { k.report with tokensSeen := k.report.tokensSeen + 1 } }

theorem tokens_setMode (k : Commit) (mode : EmitMode) (ts : List String) :
    (k.setMode mode).tokens ts = (k.tokens ts).map (·.setMode mode) :=
  foldlM_commute (g := fun k : Commit => k.setMode mode) (fun k t => k.token_setMode mode t) ts k

end Commit

/-! ## Sessions -/

namespace Session

variable {s : Session} {a : Act}

def setMode (s : Session) (mode : EmitMode) : Session := { s with engine := s.engine.setMode mode }

/-- The mode that an act sets. -/
def Act.mode? : Act → Option EmitMode
  | .config (.setMode mode) => some mode
  | _ => none

/-- Whether an act uses a utility for some entries. -/
def uses (s : Session) : Act → Bool
  | .config (.useUtility id config) =>
    (s.engine.utility? id).any fun u => !(config.getD u.defaults).entries.isEmpty
  | _ => false

/-- Whether an act registers a recipe. -/
def registers (s : Session) : Act → Bool
  | .config (.addRecipe definition) => (s.engine.addRecipe definition).isOk
  | _ => false

/-- What an act answers if it uses a utility. -/
def answer? (s : Session) : Act → Option (Except Error (List Binding))
  | .config (.useUtility id config) => some ((s.engine.useUtility id config).map (·.2))
  | _ => none

/-- The modes in force at the acts of some kind. -/
def modesAt (kind : Session → Act → Bool) (s : Session) : List Act → List EmitMode
  | [] => []
  | a :: acts => (if kind s a then [s.engine.mode] else []) ++ modesAt kind (s.act a) acts

/-- What the uses among some acts answer. -/
def answers (s : Session) : List Act → List (Except Error (List Binding))
  | [] => []
  | a :: acts => (s.answer? a).toList ++ answers (s.act a) acts

/-- Acts that are the same but for changes of the mode. -/
inductive SameButModes : List Act → List Act → Prop
  | nil : SameButModes [] []
  | left {acts acts' : List Act} (mode : EmitMode) (h : SameButModes acts acts') :
      SameButModes (.config (.setMode mode) :: acts) acts'
  | right {acts acts' : List Act} (mode : EmitMode) (h : SameButModes acts acts') :
      SameButModes acts (.config (.setMode mode) :: acts')
  | both {acts acts' : List Act} (a : Act) (h : SameButModes acts acts') :
      SameButModes (a :: acts) (a :: acts')

/-- The mode that was set last. -/
def lastMode (mode : EmitMode) (acts : List Act) : EmitMode :=
  (acts.filterMap Act.mode?).getLast?.getD mode

theorem lastMode_cons (mode : EmitMode) (a : Act) (acts : List Act) :
    lastMode mode (a :: acts) = lastMode (a.mode?.getD mode) acts := by
  unfold lastMode
  cases hm : a.mode? with
  | none => rw [List.filterMap_cons_none hm, Option.getD_none]
  | some m =>
    rw [List.filterMap_cons_some hm, List.getLast?_cons, Option.getD_some]
    rfl

namespace Sound

theorem mode_act (h : s.Sound) (a : Act) : (s.act a).engine.mode = a.mode?.getD s.engine.mode := by
  cases a with
  | config step =>
    by_cases hm : ∃ mode, step = .setMode mode
    · obtain ⟨mode, rfl⟩ := hm
      rfl
    · have hkept := (h.engine.declared_step step "").1 fun mode hmode => hm ⟨mode, hmode⟩
      cases step with
      | setMode mode => exact absurd ⟨mode, rfl⟩ hm
      | _ => exact hkept
  | commit n tokens =>
    obtain ⟨k, hk, -, hact⟩ := h.act_commit n tokens
    have hkept := congrArg Engine.mode (Commit.tokens_grows hk).engine
    rw [hact]
    exact hkept
  | reset n => rfl

theorem mode_run (h : s.Sound) (acts : List Act) :
    (s.run acts).engine.mode = lastMode s.engine.mode acts := by
  induction acts generalizing s with
  | nil => rfl
  | cons a acts ih =>
    rw [lastMode_cons, ← h.mode_act a]
    exact ih (h.act a)

theorem setMode (h : s.Sound) (mode : EmitMode) : (s.setMode mode).Sound where
  engine := h.engine.settings mode s.engine.exports s.engine.notices
  known := h.known
  present := h.present

end Sound

/-- A use for no entry leaves the engine as it is, and answers the same in both modes. -/
theorem useUtility_of_not_uses {id : GeneratorId} {config : Option ValueTable}
    (huse : s.uses (.config (.useUtility id config)) = false) :
    ∃ r : Except Error (List Binding), ∀ mode,
      (s.engine.setMode mode).useUtility id config = r.map (s.engine.setMode mode, ·) ∧
      (s.engine.setMode mode).step (.useUtility id config) = s.engine.setMode mode := by
  cases hu : s.engine.utility? id with
  | none =>
    refine ⟨.error (.unknownGenerator id), fun mode => ?_⟩
    have hnone : (s.engine.setMode mode).utility? id = none := hu
    refine ⟨?_, Engine.step_useUtility_none hnone config⟩
    rw [Engine.useUtility_eq, hnone]
    rfl
  | some u =>
    have hentries : (config.getD u.defaults).entries = [] := by simpa [uses, hu] using huse
    refine ⟨.ok [], fun mode => ?_⟩
    have hsome : (s.engine.setMode mode).utility? id = some u := hu
    have hok : (s.engine.setMode mode).useEntries id (config.getD u.defaults).entries =
        .ok (s.engine.setMode mode, []) := by rw [hentries]; rfl
    refine ⟨?_, Engine.step_useUtility hsome hok⟩
    rw [Engine.useUtility_eq, hsome]
    exact hok

/-- Whether a recipe can be registered does not depend on the mode. -/
theorem registers_setMode (h : s.Sound) (mode : EmitMode) (a : Act) :
    (s.setMode mode).registers a = s.registers a := by
  unfold registers
  split
  · rename_i definition
    rw [(h.setMode mode).engine.addRecipe_eq, h.engine.addRecipe_eq]
    cases Recipe.compile definition with
    | error cause => rfl
    | ok compiled =>
      have htaken : (s.setMode mode).engine.hasGenerator compiled.1.name =
        s.engine.hasGenerator compiled.1.name := rfl
      simp only [htaken]
      split <;> rfl
  · rfl

/-- A recipe that cannot be registered leaves the engine as it is. -/
theorem step_of_not_registers {definition : RecipeDefinition}
    (h : s.registers (.config (.addRecipe definition)) = false) :
    s.engine.step (.addRecipe definition) = s.engine := by
  have hfails : (s.engine.addRecipe definition).isOk = false := h
  cases hr : s.engine.addRecipe definition with
  | error cause => exact Engine.step_of_error (by rw [Engine.answer, hr]; rfl)
  | ok r =>
    rw [hr] at hfails
    cases hfails

/-- Where neither a recipe is registered nor a utility used, an act commutes with a change of the mode. -/
theorem Sound.act_setMode (h : s.Sound) (hmode : a.mode? = none) (huse : s.uses a = false)
    (hrecipe : s.registers a = false) (mode : EmitMode) :
    (s.setMode mode).act a = (s.act a).setMode mode ∧ (s.setMode mode).answer? a = s.answer? a := by
  cases a with
  | reset n => exact ⟨rfl, rfl⟩
  | commit n tokens =>
    refine ⟨?_, rfl⟩
    have hstart : Commit.start (s.setMode mode).engine ((s.setMode mode).caches n) =
      (Commit.start s.engine (s.caches n)).setMode mode := rfl
    rw [Session.act, Session.act, hstart, Commit.tokens_setMode]
    cases (Commit.start s.engine (s.caches n)).tokens tokens <;> rfl
  | config step =>
    by_cases hs : step.Modeless
    · have hanswer (s : Session) : s.answer? (.config step) = none := by
        cases step with
        | useUtility id config => cases hs
        | _ => rfl
      exact ⟨congrArg (Session.mk · s.caches) (Engine.step_setMode hs mode),
        (hanswer _).trans (hanswer _).symm⟩
    · cases step with
      | setMode mode => cases hmode
      | useUtility id config =>
        obtain ⟨r, hr⟩ := useUtility_of_not_uses huse
        obtain ⟨hanswer, hstep⟩ := hr mode
        obtain ⟨hanswer', hstep'⟩ := hr s.engine.mode
        rw [Engine.setMode_self] at hanswer' hstep'
        refine ⟨?_, ?_⟩
        · rw [Session.act, Session.act, hstep']
          exact congrArg (Session.mk · s.caches) hstep
        · refine congrArg some ?_
          rw [hanswer']
          refine (congrArg _ hanswer).trans ?_
          cases r <;> rfl
      | addRecipe definition =>
        have hrecipe' := (registers_setMode h mode (.config (.addRecipe definition))).trans hrecipe
        refine ⟨?_, rfl⟩
        rw [Session.act, Session.act, step_of_not_registers hrecipe, step_of_not_registers hrecipe']
      | _ => exact absurd trivial hs

/-! ## Runs -/

/-- What a use for some entries answers tells the mode. -/
theorem Sound.mode_of_answer (h : s.Sound) (huse : s.uses a = true) (mode : EmitMode) : ∃ r r',
    s.answer? a = some r ∧ (s.setMode mode).answer? a = some r' ∧ (r = r' → s.engine.mode = mode) := by
  unfold uses at huse
  split at huse
  · rename_i id config
    refine ⟨_, _, rfl, rfl, fun heq => ?_⟩
    obtain ⟨u, hu, hentries⟩ := Option.any_eq_true _ _ |>.1 huse
    obtain ⟨e', bindings, hok, hsuffixes, hcontainers, -⟩ := h.engine.useUtility_in_mode hu config
    have hu' : (s.setMode mode).engine.utility? id = some u := hu
    obtain ⟨e₂, bindings₂, hok₂, -, hcontainers₂, -⟩ :=
      (h.setMode mode).engine.useUtility_in_mode hu' config
    rw [hok, hok₂] at heq
    obtain rfl : bindings = bindings₂ := Except.ok.inj heq
    have hne : bindings ≠ [] := by
      rintro rfl
      simp [List.map_eq_nil_iff.1 hsuffixes.symm] at hentries
    obtain ⟨b, hb⟩ := List.exists_mem_of_ne_nil _ hne
    have hiff : s.engine.mode = .eager ↔ mode = .eager :=
      (hcontainers b hb).symm.trans (hcontainers₂ b hb)
    cases hm : s.engine.mode <;> cases mode <;> simp_all
  · cases huse

/-- An act leads sessions that differ in the mode at most to such sessions, unless it reads the mode. -/
theorem Sound.exists_act_setMode (h : s.Sound) (a : Act) {mode : EmitMode}
    (hread : s.uses a = true ∨ s.registers a = true → s.engine.mode = mode) : ∃ mode',
      (s.setMode mode).act a = (s.act a).setMode mode' ∧ (s.setMode mode).answer? a = s.answer? a := by
  by_cases hr : s.uses a = true ∨ s.registers a = true
  · rw [← hread hr]
    exact ⟨_, rfl, rfl⟩
  · simp only [not_or, Bool.not_eq_true] at hr
    cases hm : a.mode? with
    | none => exact ⟨mode, h.act_setMode hm hr.1 hr.2 mode⟩
    | some m =>
      unfold Act.mode? at hm
      split at hm
      · exact ⟨m, by cases hm; rfl, rfl⟩
      · cases hm

/-- Sessions that differ in the mode at most, in which acts are taken that differ in changes of the mode. -/
theorem Sound.answers_eq_iff {acts acts' : List Act} (hacts : SameButModes acts acts') (h : s.Sound)
    (mode : EmitMode)
    (hrecipes : modesAt registers s acts = modesAt registers (s.setMode mode) acts') :
    (s.answers acts = (s.setMode mode).answers acts' ↔
      modesAt uses s acts = modesAt uses (s.setMode mode) acts') ∧
    (modesAt uses s acts = modesAt uses (s.setMode mode) acts' →
      ∃ mode', (s.setMode mode).run acts' = (s.run acts).setMode mode') := by
  induction hacts generalizing s mode with
  | nil => exact ⟨iff_of_true rfl rfl, fun _ => ⟨mode, rfl⟩⟩
  | left m _ ih => exact ih (h.setMode m) mode hrecipes
  | right m _ ih => exact ih h m hrecipes
  | @both acts acts' a _ ih =>
    rw [modesAt, modesAt, registers_setMode h] at hrecipes
    rw [modesAt, modesAt]
    have huses : (s.setMode mode).uses a = s.uses a := rfl
    rw [huses, answers, answers]
    by_cases hread : s.uses a = true ∧ s.engine.mode ≠ mode
    · obtain ⟨huse, hne⟩ := hread
      obtain ⟨r, r', hr, hr', hmode⟩ := h.mode_of_answer huse mode
      rw [hr, hr', if_pos huse, if_pos huse]
      refine ⟨iff_of_false ?_ ?_, ?_⟩
      · intro heq
        exact hne (hmode (List.cons.inj heq).1)
      · intro heq
        exact hne (List.cons.inj heq).1
      · intro heq
        exact absurd (List.cons.inj heq).1 hne
    · have hmode : s.uses a = true ∨ s.registers a = true → s.engine.mode = mode := by
        rintro (huse | hrecipe)
        · by_contra hne
          exact hread ⟨huse, hne⟩
        · rw [if_pos hrecipe, if_pos hrecipe] at hrecipes
          exact (List.cons.inj hrecipes).1
      have hsame (b : Bool) (hb : b = true → s.engine.mode = mode) :
          (if b then [(s.setMode mode).engine.mode] else []) = if b then [s.engine.mode] else [] := by
        cases b with
        | false => rfl
        | true => rw [hb rfl]; rfl
      obtain ⟨mode', hact, hanswer⟩ := h.exists_act_setMode a hmode
      rw [hsame _ fun hrecipe => hmode (.inr hrecipe), List.append_right_inj, hact] at hrecipes
      rw [hsame _ fun huse => hmode (.inl huse), List.append_right_inj, hanswer,
        List.append_right_inj, hact]
      have hrun : (s.setMode mode).run (a :: acts') = ((s.act a).setMode mode').run acts' :=
        congrArg (Session.run · acts') hact
      rw [hrun]
      exact ih (h.act a) mode' hrecipes

/-- **A use follows the mode that was set last**, whether that was before or after its utility was
registered. In eager mode it emits the class of every entry, and on demand it emits nothing. So a run
answers differently once the mode is another one at a use: two runs that differ in changes of the mode
alone, and register their recipes in the same modes, answer the same if and only if the modes in force at
their uses are the same, and then they lead to the same selectors. -/
theorem uses_follow_mode (name : String) (mode : EmitMode) (acts : List Act) :
    (∀ id u config, ((new name mode).run acts).engine.utility? id = some u → ∃ e' bindings,
      ((new name mode).run acts).engine.useUtility id config = .ok (e', bindings) ∧
      bindings.map (·.suffix) = (config.getD u.defaults).entries.map (·.1) ∧
      (∀ b ∈ bindings, b.container.isSome = true ↔ lastMode mode acts = .eager) ∧
      (lastMode mode acts = .onDemand → e'.document = ((new name mode).run acts).engine.document)) ∧
    ∀ mode' acts', SameButModes acts acts' →
      modesAt registers (new name mode) acts = modesAt registers (new name mode') acts' →
      ((new name mode).answers acts = (new name mode').answers acts' ↔
        modesAt uses (new name mode) acts = modesAt uses (new name mode') acts') ∧
      (modesAt uses (new name mode) acts = modesAt uses (new name mode') acts' →
        ∃ m, (new name mode').run acts' = ((new name mode).run acts).setMode m) := by
  have h := sound_new name mode
  refine ⟨?_, ?_⟩
  · intro id u config hu
    have hmode : ((new name mode).run acts).engine.mode = lastMode mode acts := h.mode_run acts
    rw [← hmode]
    exact (h.run acts).engine.useUtility_in_mode hu config
  · intro mode' acts' hacts hrecipes
    exact h.answers_eq_iff hacts mode' hrecipes

/-- A recipe and a utility are registered, then something else happens, and then the utility is used. -/
def marginsAfter (between : List Act) : List Act :=
  [.config (.addRecipe ⟨"card", .ofList [("color", .literal "red")], [], [], []⟩),
    .config (.addUtility (.ofProperty "m" "margin"))] ++ between ++
  [.config (.useUtility 1 (some (.ofList [("sm", .literal "4px")])))]

/-- The mode is changed between the registration of a utility and its use. -/
theorem uses_follow_mode_margins :
    let changed := marginsAfter [.config (.setMode .eager)]
    ((new "app" .onDemand).run changed).engine.utility? 1 = some (.ofProperty "m" "margin") ∧
    (∃ e' bindings, ((new "app" .onDemand).run changed).engine.useUtility 1
        (some (.ofList [("lg", .literal "8px")])) = .ok (e', bindings) ∧
      bindings.map (·.suffix) = ["lg"] ∧ ∀ b ∈ bindings, b.container.isSome = true) ∧
    SameButModes (marginsAfter []) changed ∧
    modesAt registers (new "app" .onDemand) (marginsAfter []) =
      modesAt registers (new "app" .onDemand) changed ∧
    (new "app" .onDemand).answers (marginsAfter []) ≠ (new "app" .onDemand).answers changed := by
  intro changed
  have hu : ((new "app" .onDemand).run changed).engine.utility? 1 = some (.ofProperty "m" "margin") :=
    rfl
  have hacts : SameButModes (marginsAfter []) changed := .both _ (.both _ (.right _ (.both _ .nil)))
  have hrecipes : modesAt registers (new "app" .onDemand) (marginsAfter []) =
      modesAt registers (new "app" .onDemand) changed := by decide +kernel
  have huses : modesAt uses (new "app" .onDemand) (marginsAfter []) ≠
      modesAt uses (new "app" .onDemand) changed := by decide +kernel
  obtain ⟨e', bindings, hok, hsuffixes, hcontainers, -⟩ :=
    (uses_follow_mode "app" .onDemand changed).1 1 _ (some (.ofList [("lg", .literal "8px")])) hu
  refine ⟨hu, ⟨e', bindings, hok, hsuffixes, fun b hb => (hcontainers b hb).2 rfl⟩, hacts, hrecipes, ?_⟩
  intro heq
  exact huses (((uses_follow_mode "app" .onDemand _).2 .onDemand changed hacts hrecipes).1.1 heq)

end Session

end AtomicCss
