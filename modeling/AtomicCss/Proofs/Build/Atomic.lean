import AtomicCss.Proofs.Build.Incremental

/-! # Cold builds are atomic

A cold build that fails leaves everything that is served as it was, and the files of the config too.
If it was cancelled, the scanner has only forgotten the request to stop, and the call can be repeated:
its answer depends on the settings, on the scanner and on what the config states (`answer_congr`), so
it is the one that the call would have had without the request (`coldBuild_error`). -/

namespace AtomicCss

/-- Scans fail only on request, and then they have changed nothing. -/
theorem Usage.Scanner.scan_eq_error {s : Scanner} {t : FileTree} {cause : BuildError}
    (h : (s.scan t).2 = .error cause) : s.scan t = (s.stopped, .error .cancelled) := by
  rw [scan_eq] at h ⊢
  split at h
  · rename_i hstops
    rw [if_pos hstops]
  · cases h

/-- A call that asks for a cold build. -/
inductive ColdCall where
  | compile (entry : ConfigEntry)
  | rebuild

namespace Adapter

variable {a a' : Adapter} {t : FileTree} {entry entry' : ConfigEntry} {n n' : Nat}
  {call call' : ColdCall} {cause : BuildError}

/-- A cold build. -/
def coldBuild (a : Adapter) (t : FileTree) : ColdCall → Adapter × Except BuildError String
  | .compile entry => a.compile t entry
  | .rebuild => a.rebuild t

/-- What a cold build evaluates its config to. A rebuild has no config before the first compile. -/
def program? (a : Adapter) : ColdCall → Option (Except Error Engine)
  | .compile entry => some (entry.evaluate 0 a.config.effectiveMode)
  | .rebuild => a.entry.map fun (entry, n) => entry.evaluate n a.config.effectiveMode

/-- The adapter with no request to stop. -/
def uncancelled (a : Adapter) : Adapter := { a with scanner := a.scanner.resetCancel }

/-! ## What a cold build answers -/

/-- The sheet of a cold build depends on the settings, the scanner and the engine of the config. -/
theorem css_coldSession_congr (hc : a'.config = a.config) (hs : a'.scanner = a.scanner)
    (he : entry'.evaluate n' a.config.effectiveMode = entry.evaluate n a.config.effectiveMode) :
    (a'.coldSession t entry' n').2.map (·.css) = (a.coldSession t entry n).2.map (·.css) := by
  have hstart (a a' : Adapter) (engine : Engine) (cache : SessionCache) :
      (a'.startSession t entry' engine cache).map (·.css) =
        (a.startSession t entry engine cache).map (·.css) := by
    unfold startSession
    cases engine.sheet .standard <;> rfl
  have hscan : (a'.scan (·.scan t)).2 = (a.scan (·.scan t)).2 := by
    rw [scan_snd, scan_snd, hs]
  unfold coldSession
  rw [hc, he]
  cases entry.evaluate n a.config.effectiveMode with
  | error cause => rfl
  | ok engine =>
    cases a.config.effectiveMode with
    | eager => exact hstart a a' engine ∅
    | onDemand =>
      cases hr : a.scan (·.scan t) with
      | mk b result =>
        cases hr' : a'.scan (·.scan t) with
        | mk b' result' =>
          rw [hr, hr'] at hscan
          obtain rfl : result' = result := hscan
          cases result' with
          | error cause => rfl
          | ok result =>
            simp only []
            cases (Commit.start engine ∅).tokens (Usage.distinctTokens result.files) with
            | error cause => rfl
            | ok k => exact hstart b b' k.engine k.cache

/-- A compile answers with the sheet of its session, and only the scan touches the scanner. -/
theorem compile_cold (a : Adapter) (t : FileTree) (entry : ConfigEntry) :
    (a.compile t entry).2 = (a.coldSession t entry 0).2.map (·.css) ∧
      (a.compile t entry).1.scanner = (a.coldSession t entry 0).1.scanner := by
  unfold compile
  cases a.coldSession t entry 0 with
  | mk b result => cases result <;> exact ⟨rfl, rfl⟩

/-- So does a rebuild. -/
theorem rebuild_cold (ha : a.entry = some (entry, n)) :
    (a.rebuild t).2 = (a.coldSession t entry n).2.map (·.css) ∧
      (a.rebuild t).1.scanner = (a.coldSession t entry n).1.scanner := by
  unfold rebuild
  rw [ha]
  simp only []
  cases a.coldSession t entry n with
  | mk b result => cases result <;> exact ⟨rfl, rfl⟩

/-- The answer of a cold build is the sheet of the session that its config starts. -/
theorem coldBuild_snd (a : Adapter) (t : FileTree) (call : ColdCall) :
    (a.coldBuild t call).2 = (a.program? call).elim (.error .noSession) fun program =>
      (a.coldSession t ⟨none, fun _ _ => program⟩ 0).2.map (·.css) := by
  cases call with
  | compile entry => exact (compile_cold a t entry).1.trans (css_coldSession_congr rfl rfl rfl)
  | rebuild =>
    cases ha : a.entry with
    | none =>
      rw [coldBuild, rebuild, program?, ha]
      rfl
    | some p =>
      rw [program?, ha]
      exact (rebuild_cold ha).1.trans (css_coldSession_congr rfl rfl rfl)

/-- Cold builds with the same settings, scanner and program have the same answer. -/
theorem answer_congr (hc : a'.config = a.config) (hs : a'.scanner = a.scanner)
    (hp : a'.program? call' = a.program? call) :
    (a'.coldBuild t call').2 = (a.coldBuild t call).2 := by
  rw [coldBuild_snd, coldBuild_snd, hp]
  cases a.program? call with
  | none => rfl
  | some program => exact css_coldSession_congr hc hs rfl

/-! ## Cold builds that fail -/

theorem coldBuild_keeps (h : a.coldBuild t call = (a', .error cause)) :
    a'.config = a.config ∧ a'.session = a.session ∧ a'.entry.map (·.1) = a.entry.map (·.1) := by
  cases call with
  | compile entry =>
    have hk := compile_error h
    exact ⟨hk.setup.config, hk.session, by rw [hk.entry]⟩
  | rebuild =>
    obtain ⟨hset, hsession, hentry⟩ := rebuild_error h
    exact ⟨hset.config, hsession, hentry⟩

/-- A scan that fails has used up the request to stop, and nothing else. -/
theorem scan_error (h : a.scan (·.scan t) = (a', .error cause)) : a' = a.uncancelled := by
  have hfail : (a.scan (·.scan t)).2 = .error cause := by rw [h]
  rw [scan_snd] at hfail
  have hscan := Usage.Scanner.scan_eq_error hfail
  unfold scan at h
  simp only [hscan] at h
  exact (Prod.mk.inj h).1.symm

theorem startSession_ne_cancelled {engine : Engine} {cache : SessionCache} :
    a.startSession t entry engine cache ≠ .error .cancelled := by
  intro hs
  unfold startSession at hs
  cases hsheet : engine.sheet .standard <;>
    simp [hsheet, Except.mapError, bind, Except.bind, pure, Except.pure] at hs

theorem coldSession_cancelled (h : (a.coldSession t entry n).2 = .error .cancelled) :
    (a.coldSession t entry n).1 = a.uncancelled := by
  unfold coldSession at h ⊢
  split at h
  · cases h
  · exact absurd h startSession_ne_cancelled
  · split at h
    · rename_i hscan
      exact scan_error hscan
    · split at h
      · cases h
      · exact absurd h startSession_ne_cancelled

theorem coldSession_cancelled_iff : (a.coldSession t entry n).2 = .error .cancelled ↔
    a.config.effectiveMode = .onDemand ∧
      (∃ e, entry.evaluate n a.config.effectiveMode = .ok e) ∧
      a.scanner.stopsWithin (a.scanner.looks t) = true := by
  unfold coldSession
  cases he : entry.evaluate n a.config.effectiveMode with
  | error cause => simp
  | ok e =>
    cases hm : a.config.effectiveMode with
    | eager => simp [startSession_ne_cancelled]
    | onDemand =>
      have hscan : (a.scan (·.scan t)).2 = (a.scanner.scan t).2 := scan_snd
      rw [Usage.Scanner.scan_eq] at hscan
      -- the scan is the only step that can be cancelled
      cases hr : a.scan (·.scan t) with
      | mk b result =>
        rw [hr] at hscan
        cases hstops : a.scanner.stopsWithin (a.scanner.looks t) with
        | true =>
          rw [hstops, if_pos rfl] at hscan
          obtain rfl : result = .error .cancelled := hscan
          simp
        | false =>
          rw [hstops, if_neg Bool.false_ne_true] at hscan
          subst hscan
          simp only [Bool.false_eq_true, and_false, iff_false]
          split
          · simp
          · exact startSession_ne_cancelled

theorem scanner_of_cancelled (h : (a.coldBuild t call).2 = .error .cancelled) :
    (a.coldBuild t call).1.scanner = a.scanner.resetCancel := by
  have hcold {entry : ConfigEntry} {n : Nat}
      (h : (a.coldSession t entry n).2.map (·.css) = .error .cancelled) :
      (a.coldSession t entry n).1.scanner = a.scanner.resetCancel := by
    rw [coldSession_cancelled]
    · rfl
    · cases hc : (a.coldSession t entry n).2 with
      | ok session => simp [hc, Except.map] at h
      | error cause =>
        rw [hc] at h
        exact congrArg _ (Except.error.inj h)
  cases call with
  | compile entry =>
    rw [coldBuild, (compile_cold a t entry).1] at h
    exact (compile_cold a t entry).2.trans (hcold h)
  | rebuild =>
    cases ha : a.entry with
    | none =>
      rw [coldBuild_snd, program?, ha] at h
      cases h
    | some p =>
      rw [coldBuild, (rebuild_cold (n := p.2) ha).1] at h
      exact (rebuild_cold ha).2.trans (hcold h)

/-- **A cold build is cancelled if its scan hears a request to stop**, whenever that comes: at any time
on the walk, between two files, or after the last one. -/
theorem coldBuild_cancelled_iff : (a.coldBuild t call).2 = .error .cancelled ↔
    a.config.effectiveMode = .onDemand ∧ (∃ e, a.program? call = some (.ok e)) ∧
      a.scanner.stopsWithin (a.scanner.looks t) = true := by
  rw [coldBuild_snd]
  cases a.program? call with
  | none => simp
  | some program =>
    have hcold := @coldSession_cancelled_iff a t ⟨none, fun _ _ => program⟩ 0
    simp only [Option.some.injEq]
    rw [← hcold, Option.elim_some]
    cases (a.coldSession t ⟨none, fun _ _ => program⟩ 0).2 <;> simp [Except.map]

/-- **A cold build that fails changes nothing that is served.** If it was cancelled, the records stay,
the request is used up, and a call that evaluates to the same program answers what this call would
have answered without the request. -/
theorem coldBuild_error (h : a.coldBuild t call = (a', .error cause)) :
    a'.css? = a.css? ∧ a'.session.map (·.cache) = a.session.map (·.cache) ∧
    a'.engine = a.engine ∧ a'.configPaths = a.configPaths ∧
    (cause = .cancelled → a'.scanner.records = a.scanner.records ∧
      a'.scanner.cancelled = false ∧
      ∀ call', a'.program? call' = a.program? call →
        (a'.coldBuild t call').2 = (a.uncancelled.coldBuild t call).2) := by
  obtain ⟨hconfig, hsession, hentry⟩ := coldBuild_keeps h
  refine ⟨?css, ?cache, ?engine, configPaths_congr hconfig hentry, ?cancelled⟩
  case css => rw [css?, css?, hsession]
  case cache => rw [hsession]
  case engine => rw [Adapter.engine, Adapter.engine, hsession]
  case cancelled =>
    rintro rfl
    have hscanner : a'.scanner = a.scanner.resetCancel := by
      have hfst := congrArg (·.1.scanner) h
      exact hfst.symm.trans (scanner_of_cancelled (congrArg (·.2) h))
    refine ⟨by rw [hscanner]; rfl, by rw [hscanner]; rfl, ?_⟩
    intro call' hprogram
    exact answer_congr (a := a.uncancelled) hconfig hscanner hprogram

/-- An adapter that serves the margins, with a request to stop that comes after three looks. -/
def stopping : Adapter :=
  { Build.pageless Engine.margins ".m\\:sm \x7b padding: 1px; \x7d\n" with
    scanner := Build.forPages.scanner.cancelAfter 3 }

/-- The request comes after the page was read, and right before its record would be kept. -/
theorem coldBuild_error_stopping : ∃ a',
    stopping.coldBuild (Build.page "m:sm") (.compile (Build.steady Engine.margins)) =
      (a', .error .cancelled) ∧
    a'.css? = stopping.css? ∧ a'.engine = .ok Engine.margins ∧ a'.scanner.cancelled = false ∧
    a'.scanner.records.length = 0 ∧
    (a'.coldBuild (Build.page "m:sm") (.compile (Build.steady Engine.margins))).2 =
      .ok ".m\\:sm \x7b padding: 1px; margin: 4px; \x7d\n" := by
  have hlooks : stopping.scanner.looks (Build.page "m:sm") = 4 := by cbv
  have hcancelled : (stopping.coldBuild (Build.page "m:sm")
      (.compile (Build.steady Engine.margins))).2 = .error .cancelled := by
    rw [coldBuild_cancelled_iff]
    refine ⟨rfl, ⟨_, rfl⟩, ?_⟩
    rw [hlooks]
    rfl
  obtain ⟨a', hstop⟩ : ∃ a', stopping.coldBuild (Build.page "m:sm")
      (.compile (Build.steady Engine.margins)) = (a', .error .cancelled) :=
    ⟨_, Prod.ext rfl hcancelled⟩
  obtain ⟨hcss, -, hengine, -, hrest⟩ := coldBuild_error hstop
  obtain ⟨hrecords, hflag, hagain⟩ := hrest rfl
  refine ⟨a', hstop, hcss, hengine, hflag, by rw [hrecords]; rfl, ?_⟩
  -- without the request, the compile finds the page
  exact (hagain _ rfl).trans (by cbv)

end Adapter

end AtomicCss
