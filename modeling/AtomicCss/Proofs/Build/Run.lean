import AtomicCss.Proofs.Build.Calls
import AtomicCss.Proofs.Files.Tree
import AtomicCss.Proofs.Session.Commit
import Mathlib.Data.Set.Basic

/-! # Runs of a build

A build is an adapter together with the files that it looks at. It runs in events: the files are
edited, and the adapter or its scanner is called. Next to that a build keeps account of what its
guarantees are about: the earlier states of the files, the tokens that the scans of the session have
found, and the places of the files whose edits were not reported since the last cold build. -/

namespace AtomicCss

/-! ## Events -/

/-- An edit of the files, or a call of the adapter or of its scanner. -/
inductive BuildEvent where
  | edit (e : FileEdit)
  | compile (entry : ConfigEntry)
  | rebuild
  | changed (path : String)
  | scanner (call : Usage.Scanner.Call)
  /-- A request to stop. The next scan hears it after some looks. -/
  | cancel (looks : Nat)

/-- Every engine that an entry evaluates to is the work of a config. -/
def ConfigEntry.Genuine (entry : ConfigEntry) : Prop :=
  ∀ n mode engine, entry.evaluate n mode = .ok engine → engine.Reached

/-- The event brings no entry, or a genuine one. -/
def BuildEvent.Genuine : BuildEvent → Prop
  | .compile entry => entry.Genuine
  | _ => True

/-- An adapter and its files, with what happened to them. -/
structure Build where
  adapter : Adapter
  files : FileTree
  /-- The files as they were before each edit, the last edit first. -/
  past : List FileTree
  /-- The tokens that the session's scans have found. -/
  found : List String
  /-- The places at which the files have changed since the last cold build, without a report. -/
  unreported : Set Location

namespace Build

/-- The tokens that a scan has found. -/
def scanTokens : Except BuildError Usage.ScanResult → List String
  | .ok result => Usage.distinctTokens result.files
  | .error _ => []

/-- The tokens that a cold build finds. -/
def coldTokens (b : Build) : List String :=
  match b.adapter.config.effectiveMode with
  | .eager => []
  | .onDemand => scanTokens (b.adapter.scanner.scan b.files).2

/-- The build after a cold build was asked for. -/
def cold (b : Build) (adapter : Adapter) (result : Except BuildError String) : Build :=
  match result with
  | .ok _ => { b with adapter, found := b.coldTokens, unreported := ∅ }
  | .error _ => { b with adapter }

/-- The build after an event. -/
def step (b : Build) : BuildEvent → Build
  | .edit e =>
    let files := b.files.edit e
    { b with
      files
      past := b.files :: b.past
      unreported := b.unreported ∪ {l | files.at? l ≠ b.files.at? l} }
  | .compile entry =>
    let (adapter, result) := b.adapter.compile b.files entry
    b.cold adapter result
  | .rebuild =>
    let (adapter, result) := b.adapter.rebuild b.files
    b.cold adapter result
  | .changed path =>
    let (adapter, result) := b.adapter.fileChanged b.files path
    let here := b.adapter.scanner.resolvePath b.files path
    let unreported := b.unreported \ {l | l.path = here}
    match result with
    | .ok .coldRebuild => { b with adapter, found := b.coldTokens, unreported := ∅ }
    | .ok (.incremental _) =>
      let scanned := scanTokens (b.adapter.scanner.scanPaths b.files [here]).2
      { b with adapter, found := b.found ++ scanned, unreported }
    | .ok _ => { b with adapter, unreported }
    | .error _ => { b with adapter }
  | .scanner call =>
    { b with adapter := { b.adapter with scanner := b.adapter.scanner.after b.files call } }
  | .cancel looks =>
    { b with adapter := { b.adapter with scanner := b.adapter.scanner.cancelAfter looks } }

/-- The builds that events lead to, from a new adapter for whatever files. -/
inductive Reached : Build → Prop
  | new {files : FileTree} {config : BuildConfig} {adapter : Adapter} (hf : files.Reached)
      (ha : Adapter.new files config = .ok adapter) : Reached ⟨adapter, files, [], [], ∅⟩
  | step {b : Build} (hb : Reached b) {e : BuildEvent} (he : e.Genuine) : Reached (b.step e)

theorem adapter_cold (b : Build) (adapter : Adapter) (result : Except BuildError String) :
    (b.cold adapter result).adapter = adapter := by
  unfold cold
  split <;> rfl

theorem adapter_changed (b : Build) (path : String) :
    (b.step (.changed path)).adapter = (b.adapter.fileChanged b.files path).1 := by
  unfold step
  simp only []
  split <;> rfl

end Build

/-! ## The live engine -/

namespace Adapter

variable {a a' : Adapter} {t : FileTree} {path : String}

/-- The live engine is sound, and so are those that rebuilds bring. -/
structure Sound (a : Adapter) : Prop where
  session : ∀ {s}, a.session = some s → s.engine.Sound
  entry : ∀ {p}, a.entry = some p → p.1.Genuine

namespace Sound

theorem coldBuilt {entry : ConfigEntry} {n : Nat} {s : BuildSession}
    (h : a.ColdBuilt t entry n a' s) (hg : entry.Genuine) : s.engine.Sound := by
  cases hm : a.config.effectiveMode with
  | eager => exact (hg _ _ _ (h.eager hm).1).sound
  | onDemand =>
    obtain ⟨engine, result, k, he, -, hk, hs, -⟩ := h.onDemand hm
    have hstart : (Commit.start engine ∅).engine.Sound := (hg _ _ _ he).sound
    obtain ⟨k', hk', hsound⟩ := hstart.tokens_ok (Usage.distinctTokens result.files)
    obtain rfl := Except.ok.inj (hk'.symm.trans hk)
    rw [hs]
    exact hsound

theorem commits (h : a.Sound) {s : BuildSession} {r : Usage.ScanResult} {k : Commit}
    (hc : a.Commits t path s r k) : k.engine.Sound := by
  have hstart : (Commit.start s.engine s.cache).engine.Sound := h.session hc.session
  obtain ⟨k', hk', hsound⟩ := hstart.tokens_ok (Usage.distinctTokens r.files)
  obtain rfl := Except.ok.inj (hk'.symm.trans hc.commit)
  exact hsound

theorem congr (h : a.Sound) (hs : a'.session = a.session)
    (he : a'.entry.map (·.1) = a.entry.map (·.1)) : a'.Sound where
  session hs' := by
    rw [hs] at hs'
    exact h.session hs'
  entry {p} hp := by
    rw [hp, Option.map_some, eq_comm, Option.map_eq_some_iff] at he
    obtain ⟨q, hq, heq⟩ := he
    rw [← heq]
    exact h.entry hq

/-- A new session of a config, as a cold build leaves it. -/
theorem renewed {entry : ConfigEntry} {n : Nat} {s : BuildSession} (hs : s.engine.Sound)
    (hg : entry.Genuine) : Sound { a with entry := some (entry, n), session := some s } where
  session hs' := by
    obtain rfl := Option.some.inj hs'
    exact hs
  entry hp := by
    obtain rfl := Option.some.inj hp
    exact hg

theorem compile (h : a.Sound) {entry : ConfigEntry} (hg : entry.Genuine) :
    (a.compile t entry).1.Sound := by
  cases hc : a.compile t entry with
  | mk a' result =>
    cases result with
    | error cause =>
      have hk := compile_error hc
      exact h.congr hk.session (by rw [hk.entry])
    | ok css =>
      obtain ⟨a₁, session, hb, -, -, rfl⟩ := compile_ok hc
      exact renewed (coldBuilt hb hg) hg

theorem rebuild (h : a.Sound) : (a.rebuild t).1.Sound := by
  cases hc : a.rebuild t with
  | mk a' result =>
    cases result with
    | error cause =>
      obtain ⟨-, hs, he⟩ := rebuild_error hc
      exact h.congr hs he
    | ok css =>
      obtain ⟨entry, n, a₁, session, he, hb, -, -, rfl⟩ := rebuild_ok hc
      have hg := h.entry he
      exact renewed (coldBuilt hb hg) hg

theorem changed (h : a.Sound) {r : Except BuildError FileChange} (hc : a.Changed t path a' r) :
    a'.Sound := by
  have hcommitted {s : BuildSession} {r : Usage.ScanResult} {k : Commit} {css : String}
      (hc : a.Commits t path s r k) : (a.committed t path s k css).Sound := by
    refine ⟨?_, h.entry⟩
    intro s' hs
    obtain rfl := Option.some.inj hs
    exact h.commits hc
  cases hc with
  | failed _ hs he => exact h.congr hs he
  | passed _ _ hk => exact h.congr hk.session (by rw [hk.entry])
  | cold hr =>
    have := h.rebuild (t := t)
    rwa [hr] at this
  | refused _ hs hk =>
    -- a sound engine refuses no commit
    have hstart := h.session hs
    obtain ⟨k', hk', -⟩ := hstart.tokens_ok (k := .start _ _) _
    rw [hk] at hk'
    cases hk'
  | unchanged hc _ => exact (hcommitted hc).congr rfl rfl
  | written hc _ _ => exact (hcommitted hc).congr rfl rfl
  | stranded hc _ _ => exact hcommitted hc

end Sound

end Adapter

namespace Build

variable {b : Build}

/-- **The live engine of every build is sound.** -/
theorem Reached.sound (h : b.Reached) : b.adapter.Sound := by
  induction h with
  | new hf ha =>
    obtain ⟨hsession, hentry, -⟩ := Adapter.new_ok ha
    constructor
    · intro s hs
      simp [hsession] at hs
    · intro p hp
      simp [hentry] at hp
  | step hb he ih =>
    rename_i b e
    cases e with
    | edit e => exact ih
    | compile entry =>
      show (b.cold _ _).adapter.Sound
      rw [adapter_cold]
      exact ih.compile he
    | rebuild =>
      show (b.cold _ _).adapter.Sound
      rw [adapter_cold]
      exact ih.rebuild
    | changed path =>
      rw [adapter_changed]
      exact ih.changed (Adapter.changed_fileChanged _ _ path)
    | scanner call => exact ⟨ih.session, ih.entry⟩
    | cancel looks => exact ⟨ih.session, ih.entry⟩

end Build

end AtomicCss
