import AtomicCss.Proofs.Document.Persistence
import AtomicCss.Proofs.Engine.Learning
import AtomicCss.Proofs.Session.Extension
import Mathlib

/-! # The life of an engine

While an engine lives, its config takes steps, and compilers commit tokens into it, each with a session
cache of its own. Commits never fail (`Sound.act_commit`). Whatever happens, the engine stays sound
(`sound_run`), its generators stay what they are (`Sound.learns`) and its containers persist
(`Sound.persists_run`). -/

namespace AtomicCss

theorem Document.Persists.used (d : Document) (mode : EmitMode) (xs : List Emission) :
    d.Persists (d.used mode xs) := by
  cases mode with
  | eager => exact .absorbAll d xs
  | onDemand => exact .refl d

theorem Engine.Turns.persists {e e' : Engine} (ht : e.Turns e') (h : e.Sound) :
    e.document.Persists e'.document := by
  cases ht with
  | settings mode exports notices => exact .refl _
  | declare hs name value => exact .refl _
  | selector hs notices => exact .selector hs
  | nested hk hs => exact .nested hs
  | raw hs => exact .raw hs
  | generate hs =>
    obtain ⟨g, hg⟩ := Commit.exists_generator hs
    rw [h.generate_eq hg] at hs
    obtain ⟨rfl, -⟩ := Prod.mk.inj (Except.ok.inj hs)
    exact .absorbAll _ _
  | clearWarnings => exact .of_containers rfl List.suffix_rfl

/-- **No step takes a container away**, or any of its properties. -/
theorem Engine.Sound.persists_step {e : Engine} (h : e.Sound) (s : ConfigStep) :
    e.document.Persists (e.step s).document := by
  by_cases ht : s.Teaches
  · cases s with
    | addUtility u =>
      rw [h.step_addUtility]
      split
      · exact .refl _
      · exact .reserved _ _
    | useUtility id config =>
      cases hu : e.utility? id with
      | none =>
        rw [step_useUtility_none hu]
        exact .refl _
      | some u =>
        obtain ⟨table, slot, hg⟩ := utility?_eq_some_iff.1 hu
        obtain ⟨bindings, hok⟩ := h.useEntries_eq hg (config.getD u.defaults).entries
        rw [step_useUtility hu hok]
        exact .used _ _ _
    | addRecipe definition =>
      rw [h.step_addRecipe]
      split
      · exact .refl _
      · split
        · exact .refl _
        · exact (Document.Persists.reserved _ _).trans (.used _ _ _)
    | _ => cases ht
  · exact (turns_step e ht).persists h

theorem Commit.tokens_persists {k k' : Commit} {tokens : List String} (hs : k.engine.Sound)
    (h : k.tokens tokens = .ok k') : k.engine.document.Persists k'.engine.document := by
  refine tokens_rel (R := fun k k' => k.engine.document.Persists k'.engine.document)
    (fun _ => .refl _) .trans ?_ hs h
  intro k t id k' hs h
  rcases pair_cases hs h with ⟨he, -⟩ | ⟨g, -, -, -, -, hdocument, -⟩
  · rw [he]
    exact .refl _
  · rw [hdocument]
    exact .absorbAll _ _

/-! ## Sessions -/

/-- An engine with the session caches of the compilers that commit into it. -/
structure Session where
  engine : Engine
  caches : Nat → SessionCache

namespace Session

/-- What may happen to an engine: its config takes a step, a compiler commits tokens into it, or a
compiler forgets what it has committed. -/
inductive Act where
  | config (step : Engine.ConfigStep)
  | commit (compiler : Nat) (tokens : List String)
  | reset (compiler : Nat)

def new (name : String) (mode : EmitMode) : Session := ⟨.new name mode, fun _ => ∅⟩

/-- The session behind one act. -/
def act (s : Session) : Act → Session
  | .config step => { s with engine := s.engine.step step }
  | .commit n tokens =>
    match (Commit.start s.engine (s.caches n)).tokens tokens with
    | .ok k => ⟨k.engine, Function.update s.caches n k.cache⟩
    -- this never happens in a session
    | .error _ => s
  | .reset n => { s with caches := Function.update s.caches n ∅ }

/-- The session behind some acts. -/
def run (s : Session) (acts : List Act) : Session := acts.foldl act s

variable {s : Session} {n : Nat} {tokens : List String}

theorem run_append (s : Session) (acts acts' : List Act) :
    s.run (acts ++ acts') = (s.run acts).run acts' := List.foldl_append

theorem run_concat (s : Session) (acts : List Act) (a : Act) :
    s.run (acts ++ [a]) = (s.run acts).act a := run_append s acts [a]

/-- The engine is sound, and what is committed are classes of its generators, which have their selectors
under the root. -/
structure Sound (s : Session) : Prop where
  engine : s.engine.Sound
  known : ∀ {n id t}, (s.caches n).contains id t = true →
    ∃ g, s.engine.generators[id]? = some g ∧ t ∈ g.classes.map (·.1)
  present : ∀ {n id t}, (s.caches n).contains id t = true →
    (s.engine.document.findSelector? Document.rootId (Css.classSelector t)).isSome

theorem sound_new (name : String) (mode : EmitMode) : (new name mode).Sound where
  engine := Engine.sound_new name mode
  known h := by cases h
  present h := by cases h

namespace Sound

/-- **Commits never fail.** -/
theorem act_commit (h : s.Sound) (n : Nat) (tokens : List String) : ∃ k,
    (Commit.start s.engine (s.caches n)).tokens tokens = .ok k ∧ k.engine.Sound ∧
      s.act (.commit n tokens) = ⟨k.engine, Function.update s.caches n k.cache⟩ := by
  obtain ⟨k, hk, hs⟩ :=
    Engine.Sound.tokens_ok (k := .start s.engine (s.caches n)) h.engine tokens
  exact ⟨k, hk, hs, by rw [Session.act, hk]⟩

/-- What an act may do to the generators: the same as a step. -/
theorem learns (h : s.Sound) (a : Act) : s.engine.Learns (s.act a).engine := by
  cases a with
  | config step => exact h.engine.learns_step step
  | commit n tokens =>
    obtain ⟨k, hk, -, hact⟩ := h.act_commit n tokens
    have hsame := (Commit.tokens_grows hk).engine
    rw [hact]
    exact .nothing (by rw [hsame]; rfl) (by rw [hsame]; rfl)
  | reset n => exact .nothing rfl rfl

/-- No act takes a container away. -/
theorem persists (h : s.Sound) (a : Act) :
    s.engine.document.Persists (s.act a).engine.document := by
  cases a with
  | config step => exact h.engine.persists_step step
  | commit n tokens =>
    obtain ⟨k, hk, -, hact⟩ := h.act_commit n tokens
    rw [hact]
    exact Commit.tokens_persists h.engine hk
  | reset n => exact .refl _

/-- Pairs that stay committed. -/
theorem of_cached (h : s.Sound) (a : Act) (hs : (s.act a).engine.Sound) {n : Nat} {id : GeneratorId}
    {t : String} (hc : (s.caches n).contains id t = true) :
    (∃ g, (s.act a).engine.generators[id]? = some g ∧ t ∈ g.classes.map (·.1)) ∧
      ((s.act a).engine.document.findSelector? Document.rootId (Css.classSelector t)).isSome := by
  obtain ⟨g, hg, ht⟩ := h.known hc
  obtain ⟨container, hfind⟩ := Option.isSome_iff_exists.1 (h.present hc)
  refine ⟨(h.learns a).mem_classes hg ht, ?_⟩
  rw [(h.persists a).findSelector? hs.document hfind]
  rfl

/-- Pairs that are committed. -/
theorem of_committed (h : s.Sound) {id : GeneratorId} {t : String} (ht : t ∈ tokens)
    (hid : id ∈ s.engine.generatorsFor t) :
    (∃ g, (s.act (.commit n tokens)).engine.generators[id]? = some g ∧ t ∈ g.classes.map (·.1)) ∧
      ((s.act (.commit n tokens)).engine.document.findSelector? Document.rootId
        (Css.classSelector t)).isSome := by
  obtain ⟨k, hk, -, hact⟩ := h.act_commit n tokens
  obtain ⟨g, hg, hclass⟩ := h.engine.indexed.1 (Engine.mem_generatorsFor.1 hid)
  obtain ⟨g', hg', hclass'⟩ := (h.learns (.commit n tokens)).mem_classes hg hclass
  refine ⟨⟨g', hg', hclass'⟩, ?_⟩
  have hpresents : (Commit.start s.engine (s.caches n)).Presents := by
    intro id t g hc _ _
    rw [Document.findSelector?_trimmed]
    exact h.present hc
  have hc : k.cache.contains id t = true := (Commit.tokens_contains hk).2 (.inl ⟨ht, hid⟩)
  rw [hact] at hg' ⊢
  rw [← Document.findSelector?_trimmed]
  exact Commit.tokens_presents h.engine hk hpresents id t g' hc hg' hclass'

/-- What a compiler has committed after a commit. -/
theorem contains_commit (h : s.Sound) {id : GeneratorId} {t : String} :
    ((s.act (.commit n tokens)).caches n).contains id t = true ↔
      (t ∈ tokens ∧ id ∈ s.engine.generatorsFor t) ∨ (s.caches n).contains id t = true := by
  obtain ⟨k, hk, -, hact⟩ := h.act_commit n tokens
  rw [hact]
  show (Function.update s.caches n k.cache n).contains id t = true ↔ _
  rw [Function.update_self, Commit.tokens_contains hk]
  rfl

theorem caches_commit_of_ne (h : s.Sound) {m : Nat} (hm : m ≠ n) :
    (s.act (.commit n tokens)).caches m = s.caches m := by
  obtain ⟨k, -, -, hact⟩ := h.act_commit n tokens
  rw [hact]
  exact Function.update_of_ne hm _ _

theorem act (h : s.Sound) (a : Act) : (s.act a).Sound := by
  have hs : (s.act a).engine.Sound := by
    cases a with
    | config step => exact h.engine.step step
    | commit n tokens =>
      obtain ⟨k, -, hs, hact⟩ := h.act_commit n tokens
      rwa [hact]
    | reset n => exact h.engine
  -- what a compiler has committed before stays so, and what it commits now is there
  have hcached {n id t} (hc : ((s.act a).caches n).contains id t = true) :
      (∃ g, (s.act a).engine.generators[id]? = some g ∧ t ∈ g.classes.map (·.1)) ∧
        ((s.act a).engine.document.findSelector? Document.rootId (Css.classSelector t)).isSome := by
    cases a with
    | config step => exact h.of_cached (.config step) hs hc
    | reset m =>
      by_cases hn : n = m
      · subst hn
        simp [Session.act, SessionCache.contains_empty] at hc
      · exact h.of_cached (.reset m) hs (by simpa [Session.act, hn] using hc)
    | commit m tokens =>
      by_cases hn : n = m
      · subst hn
        rcases h.contains_commit.1 hc with ⟨ht, hid⟩ | hc
        · exact h.of_committed ht hid
        · exact h.of_cached (.commit n tokens) hs hc
      · rw [h.caches_commit_of_ne hn] at hc
        exact h.of_cached (.commit m tokens) hs hc
  exact ⟨hs, fun hc => (hcached hc).1, fun hc => (hcached hc).2⟩

theorem run (h : s.Sound) (acts : List Act) : (s.run acts).Sound := by
  induction acts generalizing s with
  | nil => exact h
  | cons a acts ih => exact ih (h.act a)

/-- A recipe stays registered. -/
theorem recipe_run (h : s.Sound) {id : GeneratorId} {r : Recipe} {slot : SlotId}
    (hr : s.engine.generators[id]? = some (.recipe r slot)) (acts : List Act) :
    (s.run acts).engine.generators[id]? = some (.recipe r slot) := by
  induction acts generalizing s with
  | nil => exact hr
  | cons a acts ih => exact ih (h.act a) ((h.learns a).recipe hr)

theorem persists_run (h : s.Sound) (acts : List Act) :
    s.engine.document.Persists (s.run acts).engine.document := by
  induction acts generalizing s with
  | nil => exact .refl _
  | cons a acts ih => exact (h.persists a).trans (ih (h.act a))

end Sound

/-- **An engine is sound all its life.** -/
theorem sound_run (name : String) (mode : EmitMode) (acts : List Act) :
    ((new name mode).run acts).Sound := (sound_new name mode).run acts

end Session

end AtomicCss
