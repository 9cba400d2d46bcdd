import AtomicCss.Build.Adapter
import AtomicCss.Proofs.Usage.Scanner

/-! # The calls of an adapter

What each call does, as far as one has to know it to follow a build: which parts of the adapter
it leaves alone, and what stands behind a success. -/

namespace AtomicCss

namespace Adapter

variable {a a' a'' : Adapter} {t : FileTree} {entry : ConfigEntry} {n : Nat} {cause : BuildError}
  {session : BuildSession} {css path : String}

/-- The settings stay, and the scanner is called. -/
structure SameSetup (t : FileTree) (a a' : Adapter) : Prop where
  config : a'.config = a.config
  scanner : a.scanner.Ran t a'.scanner

theorem SameSetup.refl (a : Adapter) : a.SameSetup t a := ⟨rfl, .refl⟩

/-- A new adapter has nothing to go by. -/
theorem new_ok {config : BuildConfig} (h : Adapter.new t config = .ok a) :
    a.session = none ∧ a.entry = none ∧ a.scanner.records = [] := by
  unfold Adapter.new at h
  cases hs : Usage.Scanner.new t config.root config.content with
  | error cause => simp [hs, bind, Except.bind] at h
  | ok s =>
    simp only [hs, bind, Except.bind, pure, Except.pure, Except.ok.injEq] at h
    subst h
    exact ⟨rfl, rfl, Usage.Scanner.records_new hs⟩

theorem configPaths_congr (hconfig : a'.config = a.config)
    (hentry : a'.entry.map (·.1) = a.entry.map (·.1)) : a'.configPaths = a.configPaths := by
  have hsource : a'.entry.bind (·.1.source) = a.entry.bind (·.1.source) := by
    have := congrArg (Option.bind · ConfigEntry.source) hentry
    simpa [Option.bind_map, Function.comp_def] using this
  rw [configPaths, configPaths, hconfig, hsource]

/-! ## Scanning -/

variable {run : Usage.Scanner → Usage.Scanner × Except BuildError Usage.ScanResult}
  {result : Usage.ScanResult}

/-- A scan changes the scanner alone. -/
theorem scan_eq : (a.scan run).1 = { a with scanner := (a.scan run).1.scanner } := by
  unfold Adapter.scan
  split <;> rfl

theorem scan_snd : (a.scan run).2 = (run a.scanner).2 := by
  unfold Adapter.scan
  split
  · rename_i h
    rw [h]
  · rename_i h
    rw [h]

theorem scan_ok (h : a.scan run = (a', .ok result)) :
    (run a.scanner).2 = .ok result ∧ a' = { a with scanner := (run a.scanner).1 } := by
  unfold Adapter.scan at h
  split at h
  · cases h
  · rename_i hr
    obtain ⟨rfl, rfl⟩ := Prod.mk.inj h
    rw [hr]
    exact ⟨rfl, rfl⟩

theorem sameSetup_scan (h : ∀ s : Usage.Scanner, s.Ran t (run s).1) :
    a.SameSetup t (a.scan run).1 := by
  have hr := h a.scanner
  unfold Adapter.scan
  split
  · rename_i s' heq
    rw [heq] at hr
    exact ⟨rfl, hr.trans (Usage.Scanner.ran_after .resetCancel)⟩
  · rename_i s' _ _ heq
    rw [heq] at hr
    exact ⟨rfl, hr⟩

/-! ## Cold builds -/

/-- A cold build leaves the session and the config to its caller. -/
structure KeepsSession (t : FileTree) (a a' : Adapter) : Prop where
  setup : a.SameSetup t a'
  entry : a'.entry = a.entry
  session : a'.session = a.session

theorem KeepsSession.refl (a : Adapter) : a.KeepsSession t a := ⟨.refl a, rfl, rfl⟩

theorem keepsSession_scan (h : ∀ s : Usage.Scanner, s.Ran t (run s).1) :
    a.KeepsSession t (a.scan run).1 where
  setup := sameSetup_scan h
  entry := by rw [scan_eq]
  session := by rw [scan_eq]

theorem keepsSession_coldSession (a : Adapter) (t : FileTree) (entry : ConfigEntry) (n : Nat) :
    a.KeepsSession t (a.coldSession t entry n).1 := by
  have hscan : a.KeepsSession t (a.scan (·.scan t)).1 :=
    keepsSession_scan fun _ => Usage.Scanner.ran_after .scan
  unfold Adapter.coldSession
  split
  · exact .refl a
  · exact .refl a
  · split
    · rename_i heq
      rwa [heq] at hscan
    · rename_i heq
      rw [heq] at hscan
      split
      · exact hscan
      · exact ⟨⟨hscan.setup.config, hscan.setup.scanner⟩, hscan.entry, hscan.session⟩

/-- What stands behind a cold build. -/
structure ColdBuilt (a : Adapter) (t : FileTree) (entry : ConfigEntry) (n : Nat) (a' : Adapter)
    (session : BuildSession) : Prop where
  /-- The sheet is that of the engine. -/
  sheet : session.engine.sheet .standard = .ok session.css
  /-- Of the config's files, one is remembered. -/
  configContent : session.configContent =
    (a.config.configPath.or entry.source).bind (contentAt? t)
  eager : a.config.effectiveMode = .eager →
    entry.evaluate n .eager = .ok session.engine ∧ session.cache = ∅ ∧ a'.scanner = a.scanner
  /-- On demand, the tokens of all content are committed into what the config states. -/
  onDemand : a.config.effectiveMode = .onDemand → ∃ engine result k,
    entry.evaluate n .onDemand = .ok engine ∧ (a.scanner.scan t).2 = .ok result ∧
    (Commit.start engine ∅).tokens (Usage.distinctTokens result.files) = .ok k ∧
    session.engine = k.engine ∧ session.cache = k.cache ∧
    a'.scanner = (a.scanner.scan t).1

theorem startSession_ok {engine : Engine} {cache : SessionCache}
    (h : a.startSession t entry engine cache = .ok session) :
    session.engine = engine ∧ session.cache = cache ∧
      engine.sheet .standard = .ok session.css ∧
      session.configContent = (a.config.configPath.or entry.source).bind (contentAt? t) := by
  unfold Adapter.startSession at h
  cases hs : engine.sheet .standard with
  | error e => simp [hs, Except.mapError, bind, Except.bind] at h
  | ok css =>
    simp only [hs, Except.mapError, bind, Except.bind, pure, Except.pure, Except.ok.injEq] at h
    subst h
    exact ⟨rfl, rfl, rfl, rfl⟩

theorem coldBuilt (h : a.coldSession t entry n = (a', .ok session)) :
    a.ColdBuilt t entry n a' session := by
  unfold Adapter.coldSession at h
  split at h
  · cases h
  · rename_i engine he hm
    obtain ⟨rfl, hs⟩ := Prod.mk.inj h
    obtain ⟨rfl, hc, hcss, hcontent⟩ := startSession_ok hs
    rw [hm] at he
    refine ⟨hcss, hcontent, ?eager, ?onDemand⟩
    case eager =>
      intro _
      exact ⟨he, hc, rfl⟩
    case onDemand =>
      intro hd
      exact absurd (hm.symm.trans hd) (by decide)
  · rename_i engine he hm
    rw [hm] at he
    split at h
    · cases h
    · rename_i a₁ result hscan
      obtain ⟨hr, rfl⟩ := scan_ok hscan
      split at h
      · cases h
      · rename_i k hk
        obtain ⟨rfl, hs⟩ := Prod.mk.inj h
        obtain ⟨hengine, hc, hcss, hcontent⟩ := startSession_ok hs
        refine ⟨?sheet, hcontent, ?eager, ?onDemand⟩
        case sheet =>
          rw [hengine]
          exact hcss
        case eager =>
          intro hd
          exact absurd (hm.symm.trans hd) (by decide)
        case onDemand =>
          intro _
          exact ⟨engine, result, k, he, hr, hk, hengine, hc, rfl⟩

/-! ## Compiling and rebuilding -/

theorem compile_ok (h : a.compile t entry = (a', .ok css)) : ∃ a₁ session,
    a.ColdBuilt t entry 0 a₁ session ∧ a.KeepsSession t a₁ ∧ css = session.css ∧
    a' = { a₁ with entry := some (entry, 1), session := some session } := by
  have hk := keepsSession_coldSession a t entry 0
  unfold Adapter.compile at h
  split at h
  · cases h
  · rename_i a₁ session hc
    obtain ⟨rfl, hcss⟩ := Prod.mk.inj h
    rw [hc] at hk
    exact ⟨a₁, session, coldBuilt hc, hk, (Except.ok.inj hcss).symm, rfl⟩

/-- The previous session and its config stay unless a compile succeeds. -/
theorem compile_error (h : a.compile t entry = (a', .error cause)) : a.KeepsSession t a' := by
  have hk := keepsSession_coldSession a t entry 0
  unfold Adapter.compile at h
  split at h
  · rename_i hc
    rw [hc] at hk
    obtain ⟨rfl, -⟩ := Prod.mk.inj h
    exact hk
  · cases h

theorem rebuild_ok (h : a.rebuild t = (a', .ok css)) : ∃ entry n a₁ session,
    a.entry = some (entry, n) ∧ a.ColdBuilt t entry n a₁ session ∧ a.KeepsSession t a₁ ∧
    css = session.css ∧
    a' = { a₁ with entry := some (entry, n + 1), session := some session } := by
  unfold Adapter.rebuild at h
  split at h
  · cases h
  · rename_i entry n he
    have hk := keepsSession_coldSession a t entry n
    cases hc : a.coldSession t entry n with
    | mk a₁ result =>
      cases result with
      | error cause => simp [hc] at h
      | ok session =>
        simp only [hc] at h
        obtain ⟨rfl, hcss⟩ := Prod.mk.inj h
        rw [hc] at hk
        exact ⟨entry, n, a₁, session, he, coldBuilt hc, hk, (Except.ok.inj hcss).symm, rfl⟩

/-- A rebuild that fails counts its evaluation and leaves the session as it was. -/
theorem rebuild_error (h : a.rebuild t = (a', .error cause)) :
    a.SameSetup t a' ∧ a'.session = a.session ∧ a'.entry.map (·.1) = a.entry.map (·.1) := by
  unfold Adapter.rebuild at h
  split at h
  · rename_i he
    obtain ⟨rfl, -⟩ := Prod.mk.inj h
    exact ⟨.refl a, rfl, rfl⟩
  · rename_i entry n he
    have hk := keepsSession_coldSession a t entry n
    cases hc : a.coldSession t entry n with
    | mk a₁ result =>
      rw [hc] at hk
      cases result with
      | ok session => simp [hc] at h
      | error cause =>
        simp only [hc] at h
        obtain ⟨rfl, -⟩ := Prod.mk.inj h
        exact ⟨⟨hk.setup.config, hk.setup.scanner⟩, hk.session, by rw [he]; rfl⟩

theorem setup_compile (a : Adapter) (t : FileTree) (entry : ConfigEntry) :
    a.SameSetup t (a.compile t entry).1 := by
  cases h : a.compile t entry with
  | mk a' result =>
    cases result with
    | error cause => exact (compile_error h).setup
    | ok css =>
      obtain ⟨a₁, session, -, hk, -, rfl⟩ := compile_ok h
      exact ⟨hk.setup.config, hk.setup.scanner⟩

theorem setup_rebuild (a : Adapter) (t : FileTree) : a.SameSetup t (a.rebuild t).1 := by
  cases h : a.rebuild t with
  | mk a' result =>
    cases result with
    | error cause => exact (rebuild_error h).1
    | ok css =>
      obtain ⟨entry, n, a₁, session, -, -, hk, -, rfl⟩ := rebuild_ok h
      exact ⟨hk.setup.config, hk.setup.scanner⟩

/-! ## Changed files -/

/-- A report comes to a content file that is there, and classes are emitted on demand. -/
structure TakesContent (a : Adapter) (t : FileTree) (path : String) : Prop where
  config : a.isConfigPath t (a.scanner.resolvePath t path) = false
  content : a.scanner.isContent (a.scanner.resolvePath t path) = true
  present : t.pathExists (a.scanner.resolvePath t path) = true
  mode : a.config.effectiveMode = .onDemand

/-- A report whose tokens are committed into the session: the outcome of its scan, and the commit
that follows. -/
structure Commits (a : Adapter) (t : FileTree) (path : String) (s : BuildSession)
    (r : Usage.ScanResult) (k : Commit) : Prop where
  session : a.session = some s
  takes : a.TakesContent t path
  scan : (a.scanner.scanPaths t [a.scanner.resolvePath t path]).2 = .ok r
  commit : (Commit.start s.engine s.cache).tokens (Usage.distinctTokens r.files) = .ok k

/-- The adapter after a commit, with the sheet that it serves then. -/
def committed (a : Adapter) (t : FileTree) (path : String) (s : BuildSession) (k : Commit)
    (css : String) : Adapter :=
  { a with
    scanner := (a.scanner.scanPaths t [a.scanner.resolvePath t path]).1
    session := some { s with engine := k.engine, cache := k.cache, css } }

/-- What may become of a report, and of the adapter. Nothing is said of the session after a commit
that fails: engines that configs lead to exclude it. -/
inductive Changed (a : Adapter) (t : FileTree) (path : String) :
    Adapter → Except BuildError FileChange → Prop
  | failed {a' : Adapter} {cause : BuildError} (setup : a.SameSetup t a')
      (session : a'.session = a.session) (entry : a'.entry.map (·.1) = a.entry.map (·.1)) :
      Changed a t path a' (.error cause)
  | passed {a' : Adapter} {change : FileChange} (none : change = .ignored ∨ change = .removed)
      (untaken : ¬ a.TakesContent t path) (keeps : a.KeepsSession t a') :
      Changed a t path a' (.ok change)
  | cold {a' : Adapter} {css : String} (rebuild : a.rebuild t = (a', .ok css)) :
      Changed a t path a' (.ok .coldRebuild)
  | refused {a' : Adapter} {s : BuildSession} {r : Usage.ScanResult} {cause : Error}
      (setup : a.SameSetup t a') (session : a.session = some s)
      (commit : (Commit.start s.engine s.cache).tokens (Usage.distinctTokens r.files) =
        .error cause) : Changed a t path a' (.error (.core cause))
  /-- Nothing was generated, and the sheet stays. -/
  | unchanged {s : BuildSession} {r : Usage.ScanResult} {k : Commit}
      (commits : a.Commits t path s r k) (report : k.report.changed = false) :
      Changed a t path { a.committed t path s k s.css with lastScan := some r.report }
        (.ok (.incremental k.report))
  | written {s : BuildSession} {r : Usage.ScanResult} {k : Commit} {css : String}
      (commits : a.Commits t path s r k) (report : k.report.changed = true)
      (sheet : k.engine.sheet .standard = .ok css) :
      Changed a t path { a.committed t path s k css with lastScan := some r.report }
        (.ok (.incremental k.report))
  /-- Something was generated, and the sheet cannot be written: the commit stays. -/
  | stranded {s : BuildSession} {r : Usage.ScanResult} {k : Commit} {cause : Error}
      (commits : a.Commits t path s r k) (report : k.report.changed = true)
      (sheet : k.engine.sheet .standard = .error cause) :
      Changed a t path (a.committed t path s k s.css) (.error (.core cause))

theorem Changed.setup {result : Except BuildError FileChange} (h : a.Changed t path a' result) :
    a.SameSetup t a' := by
  have hscan : a.scanner.Ran t (a.scanner.scanPaths t [a.scanner.resolvePath t path]).1 :=
    Usage.Scanner.ran_after (.scanPaths _)
  cases h with
  | failed hsetup _ _ => exact hsetup
  | passed _ _ hk => exact hk.setup
  | cold hr =>
    have := a.setup_rebuild t
    rwa [hr] at this
  | refused hsetup _ _ => exact hsetup
  | unchanged _ _ => exact ⟨rfl, hscan⟩
  | written _ _ _ => exact ⟨rfl, hscan⟩
  | stranded _ _ _ => exact ⟨rfl, hscan⟩

theorem changed_configChanged
    (hc : a.isConfigPath t (a.scanner.resolvePath t path) = true) {here : String} :
    a.Changed t path (a.configChanged t session here).1 (a.configChanged t session here).2 := by
  have hnot : ¬ a.TakesContent t path := by
    intro h
    simp [h.config] at hc
  unfold Adapter.configChanged
  simp only []
  split
  · exact .passed (.inl rfl) hnot (.refl a)
  · cases hr : a.rebuild t with
    | mk a' result =>
      cases result with
      | ok css => exact .cold hr
      | error cause =>
        obtain ⟨hsetup, hsession, hentry⟩ := rebuild_error hr
        exact .failed hsetup hsession hentry

section Commits

variable {s : BuildSession} {r : Usage.ScanResult} {k : Commit}

theorem scan_scanPaths (hr : (a.scanner.scanPaths t [path]).2 = .ok r) :
    a.scan (·.scanPaths t [path]) =
      ({ a with scanner := (a.scanner.scanPaths t [path]).1 }, .ok r) := by
  have hpair : a.scanner.scanPaths t [path] = ((a.scanner.scanPaths t [path]).1, .ok r) :=
    Prod.ext rfl hr
  unfold Adapter.scan
  simp only []
  rw [hpair]

theorem contentChanged_of_commits (h : a.Commits t path s r k) :
    a.contentChanged t s (a.scanner.resolvePath t path) =
      if k.report.changed then
        match k.engine.sheet .standard with
        | .ok css => ({ a.committed t path s k css with lastScan := some r.report },
          .ok (.incremental k.report))
        | .error cause => (a.committed t path s k s.css, .error (.core cause))
      else ({ a.committed t path s k s.css with lastScan := some r.report },
        .ok (.incremental k.report)) := by
  unfold Adapter.contentChanged
  rw [scan_scanPaths h.scan]
  simp only [commitTokens, h.commit, Except.mapError, bind, Except.bind, pure, Except.pure]
  cases k.report.changed with
  | false => rfl
  | true =>
    simp only [if_true]
    cases k.engine.sheet .standard <;> rfl

end Commits

theorem changed_contentChanged (hs : a.session = some session) (h : a.TakesContent t path) :
    a.Changed t path (a.contentChanged t session (a.scanner.resolvePath t path)).1
      (a.contentChanged t session (a.scanner.resolvePath t path)).2 := by
  cases hr : (a.scanner.scanPaths t [a.scanner.resolvePath t path]).2 with
  | error cause =>
    have hkeeps : a.KeepsSession t (a.scan (·.scanPaths t [a.scanner.resolvePath t path])).1 :=
      keepsSession_scan fun _ => Usage.Scanner.ran_after (.scanPaths _)
    have hscan : (a.scan (·.scanPaths t [a.scanner.resolvePath t path])).2 = .error cause :=
      scan_snd.trans hr
    unfold Adapter.contentChanged
    split
    · rename_i heq
      rw [heq] at hkeeps
      exact .failed hkeeps.setup hkeeps.session (by rw [hkeeps.entry])
    · rename_i heq
      rw [heq] at hscan
      cases hscan
  | ok r =>
    cases hk : (Commit.start session.engine session.cache).tokens
        (Usage.distinctTokens r.files) with
    | error cause =>
      unfold Adapter.contentChanged
      rw [scan_scanPaths hr]
      simp only [commitTokens, hk, Except.mapError, bind, Except.bind]
      exact .refused ⟨rfl, Usage.Scanner.ran_after (.scanPaths _)⟩ hs hk
    | ok k =>
      have hcommits : a.Commits t path session r k := ⟨hs, h, hr, hk⟩
      rw [contentChanged_of_commits hcommits]
      cases hreport : k.report.changed with
      | false => exact .unchanged hcommits hreport
      | true =>
        simp only [if_true]
        cases hsheet : k.engine.sheet .standard with
        | ok css => exact .written hcommits hreport hsheet
        | error cause => exact .stranded hcommits hreport hsheet

theorem fileChanged_of_takesContent (hs : a.session = some session) (h : a.TakesContent t path) :
    a.fileChanged t path = a.contentChanged t session (a.scanner.resolvePath t path) := by
  unfold Adapter.fileChanged
  simp only [hs, h.config, h.content, h.present, h.mode, Bool.not_true, Bool.false_eq_true,
    if_false, reduceCtorEq]

/-- Everything that a report can lead to. -/
theorem changed_fileChanged (a : Adapter) (t : FileTree) (path : String) :
    a.Changed t path (a.fileChanged t path).1 (a.fileChanged t path).2 := by
  -- the causes to pass a report over, in the order in which they are looked at
  unfold Adapter.fileChanged
  split
  · exact .failed (.refl a) rfl rfl
  · rename_i session hs
    simp only []
    split
    · rename_i hc
      exact changed_configChanged hc
    · rename_i hc
      split
      · rename_i hn
        refine .passed (.inl rfl) ?_ (.refl a)
        intro h
        simp [h.content] at hn
      · rename_i hn
        split
        · rename_i hp
          refine .passed (.inr rfl) ?_ ⟨⟨rfl, Usage.Scanner.ran_after (.forget _)⟩, rfl, rfl⟩
          intro h
          simp [h.present] at hp
        · rename_i hp
          split
          · rename_i hm
            refine .passed (.inl rfl) ?_ (.refl a)
            intro h
            simp [h.mode] at hm
          · rename_i hm
            refine changed_contentChanged hs ⟨?_, ?_, ?_, ?_⟩
            · simpa using hc
            · simpa using hn
            · simpa using hp
            · cases he : a.config.effectiveMode with
              | eager => exact absurd he hm
              | onDemand => rfl

end Adapter

end AtomicCss
