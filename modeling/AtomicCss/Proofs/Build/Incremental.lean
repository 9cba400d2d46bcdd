import AtomicCss.Proofs.Build.Failure
import AtomicCss.Proofs.Session.Order
import AtomicCss.Proofs.Usage.Records

/-! # Incremental builds

A build that follows its files serves what a fresh evaluation of the config makes of all tokens that
were found. If every change was reported and no token has gone, that is what a rebuild makes of the
files as they are.

Three things are kept along the way: the records of the scanner are honest, the session holds
exactly the found tokens, and what is not reported is all that the session may lack. -/

namespace AtomicCss

namespace Engine

variable {e : Engine}

theorem biUnion_pairsOf_append (e : Engine) (ts ts' : List String) :
    (⋃ t ∈ ts ++ ts', e.pairsOf t) = (⋃ t ∈ ts, e.pairsOf t) ∪ ⋃ t ∈ ts', e.pairsOf t := by
  ext
  simp [or_and_right, exists_or]

end Engine

/-! ## What a session holds -/

/-- The session holds what the tokens make of the engine, and serves the sheet of that. -/
structure BuildSession.Holds (s : BuildSession) (e : Engine) (tokens : List String) : Prop where
  committed : Committed e (⋃ t ∈ tokens, e.pairsOf t) (.start s.engine s.cache)
  sheet : s.engine.sheet .standard = .ok s.css

namespace BuildSession.Holds

variable {s : BuildSession} {e : Engine} {tokens tokens' : List String}

/-- What a session serves is what a fresh commit of its tokens leads to. -/
theorem fresh (h : s.Holds e tokens) (he : e.Sound) (hd : e.DistinctClasses)
    (hsame : ∀ t, t ∈ tokens' ↔ t ∈ tokens) :
    ∃ k, (Commit.start e ∅).tokens tokens' = .ok k ∧ k.engine.sheet .standard = .ok s.css := by
  obtain ⟨k, hk, hc⟩ := (Committed.start he hd).tokens he hd tokens'
  have hpairs : ∅ ∪ (⋃ t ∈ tokens', e.pairsOf t) = ⋃ t ∈ tokens, e.pairsOf t := by
    simp only [Set.empty_union, hsame]
  rw [hpairs] at hc
  exact ⟨k, hk, (hc.sheet_eq he h.committed .standard).trans h.sheet⟩

end BuildSession.Holds

namespace Adapter

variable {a a' : Adapter} {t : FileTree} {entry : ConfigEntry} {e : Engine} {n : Nat}
  {s : BuildSession} {path css : String}

/-- After a cold build on demand, the session holds what the scan has found. -/
theorem ColdBuilt.holds (h : a.ColdBuilt t entry n a' s) (hm : a.config.effectiveMode = .onDemand)
    (hn : entry.evaluate n .onDemand = .ok e) (he : e.Sound) (hd : e.DistinctClasses) :
    ∃ r, (a.scanner.scan t).2 = .ok r ∧ s.Holds e (Usage.distinctTokens r.files) := by
  obtain ⟨e', r, k, hn', hr, hk, hengine, hcache, -⟩ := h.onDemand hm
  obtain rfl := Except.ok.inj (hn.symm.trans hn')
  obtain ⟨k', hk', hc⟩ := (Committed.start he hd).tokens he hd (Usage.distinctTokens r.files)
  obtain rfl := Except.ok.inj (hk'.symm.trans hk)
  rw [Set.empty_union] at hc
  exact ⟨r, hr, hc.congr hengine hcache, h.sheet⟩

/-- A commit adds its tokens to the session. -/
theorem Commits.holds {r : Usage.ScanResult} {k : Commit} {tokens : List String}
    (h : a.Commits t path s r k) (hs : s.Holds e tokens) (he : e.Sound) (hd : e.DistinctClasses)
    (hsheet : k.engine.sheet .standard = .ok css) :
    BuildSession.Holds { s with engine := k.engine, cache := k.cache, css } e
      (tokens ++ Usage.distinctTokens r.files) := by
  obtain ⟨k', hk', hc⟩ := hs.committed.tokens he hd (Usage.distinctTokens r.files)
  obtain rfl := Except.ok.inj (hk'.symm.trans h.commit)
  rw [← Engine.biUnion_pairsOf_append] at hc
  exact ⟨hc.congr rfl rfl, hsheet⟩

/-- A rebuild serves what the config makes of the tokens that its scan finds. -/
theorem rebuild_eq_ok {r : Usage.ScanResult} {k : Commit} (ha : a.entry = some (entry, n))
    (hm : a.config.effectiveMode = .onDemand) (hn : entry.evaluate n .onDemand = .ok e)
    (hr : (a.scanner.scan t).2 = .ok r)
    (hk : (Commit.start e ∅).tokens (Usage.distinctTokens r.files) = .ok k)
    (hsheet : k.engine.sheet .standard = .ok css) : (a.rebuild t).2 = .ok css := by
  have hscan : a.scan (·.scan t) = ({ a with scanner := (a.scanner.scan t).1 }, .ok r) := by
    have hpair : a.scanner.scan t = ((a.scanner.scan t).1, .ok r) := Prod.ext rfl hr
    unfold Adapter.scan
    simp only []
    rw [hpair]
  simp [rebuild, coldSession, ha, hm, hn, hscan, hk, startSession, hsheet, Except.mapError,
    bind, Except.bind, pure, Except.pure]

theorem isConfigPath_congr (hset : a.SameSetup t a') (he : a'.entry.map (·.1) = a.entry.map (·.1))
    (t' : FileTree) (path : String) : a'.isConfigPath t' path = a.isConfigPath t' path := by
  simp only [isConfigPath, configPaths_congr hset.config he, hset.scanner.sameFiles.resolvePath]

end Adapter

namespace Build

variable {b : Build} {entry : ConfigEntry} {e : Engine} {path : String}

/-! ## What the scanner knows -/

/-- The files with all their earlier states. -/
def trees (b : Build) : List FileTree := b.files :: b.past

/-- The records of the scanner are honest. -/
structure Kept (b : Build) : Prop where
  files : b.files.Reached
  honest : b.adapter.scanner.Honest b.trees

theorem Kept.trusts (h : b.Kept) (hf : Usage.Faithful b.trees) : b.adapter.scanner.Trusts b.files :=
  h.honest.trusts List.mem_cons_self h.files.proper hf

theorem files_cold (adapter : Adapter) (result : Except BuildError String) :
    (b.cold adapter result).files = b.files := by
  unfold cold
  split <;> rfl

theorem past_cold (adapter : Adapter) (result : Except BuildError String) :
    (b.cold adapter result).past = b.past := by
  unfold cold
  split <;> rfl

theorem files_changed (path : String) : (b.step (.changed path)).files = b.files := by
  unfold step
  simp only []
  split <;> rfl

theorem past_changed (path : String) : (b.step (.changed path)).past = b.past := by
  unfold step
  simp only []
  split <;> rfl

theorem Kept.cold (h : b.Kept) {adapter : Adapter} (hset : b.adapter.SameSetup b.files adapter)
    (result : Except BuildError String) : (b.cold adapter result).Kept := by
  constructor
  · rw [files_cold]
    exact h.files
  · rw [trees, files_cold, past_cold, adapter_cold]
    exact h.honest.ran List.mem_cons_self hset.scanner

/-- **The scanner of every build is honest.** -/
theorem Reached.kept (h : b.Reached) : b.Kept := by
  induction h with
  | new hf ha =>
    obtain ⟨-, -, hrecords⟩ := Adapter.new_ok ha
    refine ⟨hf, ?_⟩
    intro r hr
    simp [hrecords] at hr
  | step hb he ih =>
    rename_i b e
    cases e with
    | edit e => exact ⟨ih.files.edit e, ih.honest.mono (List.subset_cons_self _ _)⟩
    | compile entry => exact ih.cold (b.adapter.setup_compile b.files entry) _
    | rebuild => exact ih.cold (b.adapter.setup_rebuild b.files) _
    | changed path =>
      have hset := (Adapter.changed_fileChanged b.adapter b.files path).setup
      constructor
      · rw [files_changed]
        exact ih.files
      · rw [trees, files_changed, past_changed, adapter_changed]
        exact ih.honest.ran List.mem_cons_self hset.scanner
    | scanner call =>
      exact ⟨ih.files, ih.honest.ran List.mem_cons_self (Usage.Scanner.ran_after call)⟩
    | cancel looks => exact ⟨ih.files, ih.honest⟩

/-! ## Builds that follow their files -/

/-- No content file is a file of the config, at any time. -/
def Apart (b : Build) : Prop :=
  ∀ t ∈ b.trees, ∀ l content, b.adapter.scanner.Holds t l content →
    b.adapter.isConfigPath t l.path = false

/-- A successful compile on demand, followed by edits and by reports that succeed. -/
inductive Follows (entry : ConfigEntry) : Build → Prop
  | compiled {b : Build} {css : String} (hb : b.Reached) (hg : entry.Genuine)
      (hm : b.adapter.config.effectiveMode = .onDemand)
      (h : (b.adapter.compile b.files entry).2 = .ok css) : Follows entry (b.step (.compile entry))
  | edited {b : Build} (h : Follows entry b) (edit : FileEdit) : Follows entry (b.step (.edit edit))
  | reported {b : Build} (h : Follows entry b) {path : String} {change : FileChange}
      (hr : (b.adapter.fileChanged b.files path).2 = .ok change) :
      Follows entry (b.step (.changed path))

namespace Follows

theorem genuine (h : b.Follows entry) : entry.Genuine := by
  induction h with
  | compiled _ hg _ _ => exact hg
  | edited _ _ ih => exact ih
  | reported _ _ ih => exact ih

theorem reached (h : b.Follows entry) : b.Reached := by
  induction h with
  | compiled hb hg _ _ => exact .step hb hg
  | edited _ edit ih => exact .step ih (e := .edit edit) trivial
  | @reported _ _ path _ _ ih => exact .step ih (e := .changed path) trivial

end Follows

/-- What a build keeps while it follows its files: the session holds what was found, and all
content but what was not reported is among that. -/
structure Live (entry : ConfigEntry) (e : Engine) (b : Build) : Prop where
  mode : b.adapter.config.effectiveMode = .onDemand
  running : b.adapter.scanner.stop = none
  config : ∃ n, b.adapter.entry = some (entry, n)
  session : ∃ s, b.adapter.session = some s ∧ s.Holds e b.found
  complete : b.Apart → Usage.Faithful b.trees → ∀ l content,
    b.adapter.scanner.Holds b.files l content → l ∉ b.unreported →
    Usage.Scanner.contentTokens content ⊆ b.found

/-- A cold build finds all content that is there. -/
theorem Kept.live_cold {a : Adapter} {n : Nat} {s : BuildSession} (hk : b.Kept)
    (hc : b.adapter.ColdBuilt b.files entry n a s) (hset : b.adapter.SameSetup b.files a)
    (hm : b.adapter.config.effectiveMode = .onDemand) (hn : entry.evaluate n .onDemand = .ok e)
    (he : e.Sound) (hd : e.DistinctClasses) :
    Live entry e { b with
      adapter := { a with entry := some (entry, n + 1), session := some s }
      found := b.coldTokens
      unreported := ∅ } := by
  obtain ⟨r, hr, hs⟩ := hc.holds hm hn he hd
  have hfound : b.coldTokens = Usage.distinctTokens r.files := by
    simp only [coldTokens, hm, scanTokens, hr]
  refine ⟨?mode, ?running, ⟨_, rfl⟩, ⟨s, rfl, ?holds⟩, ?complete⟩
  case mode =>
    show a.config.effectiveMode = .onDemand
    rw [hset.config]
    exact hm
  case running =>
    -- a scan that succeeds leaves no request behind
    obtain ⟨-, r', -, -, hr', -, -, -, hscanner⟩ := hc.onDemand hm
    show a.scanner.stop = none
    rw [hscanner]
    exact (Usage.Scanner.scan_ok hr').1
  case holds =>
    show s.Holds e b.coldTokens
    rw [hfound]
    exact hs
  case complete =>
    intro _ hf l content hl _ x hx
    show x ∈ b.coldTokens
    rw [hfound, hk.honest.mem_scan hk.files.proper (hk.trusts hf) hr]
    exact ⟨l, content, hset.scanner.sameFiles.holds.1 hl, hx⟩

/-- An edit adds to what was not reported. -/
theorem Live.edit (h : b.Live entry e) (edit : FileEdit) : (b.step (.edit edit)).Live entry e := by
  refine ⟨h.mode, h.running, h.config, h.session, ?_⟩
  intro ha hf l content hl hnot
  have hsub : b.trees ⊆ (b.step (.edit edit)).trees := List.subset_cons_self _ _
  -- a file that is not among the unreported ones is what it was
  have hsame : (b.files.edit edit).at? l = b.files.at? l := by
    by_contra hne
    exact hnot (.inr hne)
  apply h.complete _ _ l content
  · obtain ⟨hcontent, written, hat⟩ := hl
    exact ⟨hcontent, written, hsame.symm.trans hat⟩
  · intro hmem
    exact hnot (.inl hmem)
  · intro t ht
    exact ha t (hsub ht)
  · intro t ht t' ht'
    exact hf t (hsub ht) t' (hsub ht')

theorem Apart.of_step {b' : Build} (h : b'.Apart) (htrees : b'.trees = b.trees)
    (hset : b.adapter.SameSetup b.files b'.adapter)
    (hentry : b'.adapter.entry.map (·.1) = b.adapter.entry.map (·.1)) : b.Apart := by
  intro t ht l content hl
  rw [← Adapter.isConfigPath_congr hset hentry]
  rw [← htrees] at ht
  exact h t ht l content (hset.scanner.sameFiles.holds.2 hl)

/-- A content file that is reported and apart from the config is taken. -/
theorem Apart.takesContent (h : b.Apart) (hk : b.Kept) (hm : b.adapter.config.effectiveMode = .onDemand)
    {l : Location} {content : ByteArray} (hl : b.adapter.scanner.Holds b.files l content)
    (hpath : l.path = b.adapter.scanner.resolvePath b.files path) :
    b.adapter.TakesContent b.files path := by
  obtain ⟨hcontent, written, hat⟩ := id hl
  have hwalk : b.files.Walkable l := hk.files.proper.walkable (by rw [hat]; rfl)
  refine ⟨?_, ?_, ?_, hm⟩
  · rw [← hpath]
    exact h b.files List.mem_cons_self l content hl
  · rw [← hpath]
    exact hcontent
  · rw [← hpath, FileTree.pathExists, hwalk.locate_path]
    rfl

/-- A report that is passed over was not about content. -/
theorem Live.passed {a : Adapter} (h : b.Live entry e) (hk : b.Kept)
    (hkeeps : b.adapter.KeepsSession b.files a) (hnot : ¬ b.adapter.TakesContent b.files path) :
    Live entry e { b with
      adapter := a
      unreported :=
        b.unreported \ {l | l.path = b.adapter.scanner.resolvePath b.files path} } := by
  refine ⟨?mode, hkeeps.setup.scanner.running h.running, ?config, ?session, ?complete⟩
  case mode =>
    rw [hkeeps.setup.config]
    exact h.mode
  case config =>
    rw [hkeeps.entry]
    exact h.config
  case session =>
    rw [hkeeps.session]
    exact h.session
  case complete =>
    intro ha hf l content hl hreported
    have hl := hkeeps.setup.scanner.sameFiles.holds.1 hl
    have ha : b.Apart := ha.of_step rfl hkeeps.setup (by rw [hkeeps.entry])
    -- had the report been about this file, it would have been taken
    by_cases hpath : l.path = b.adapter.scanner.resolvePath b.files path
    · exact absurd (ha.takesContent hk h.mode hl hpath) hnot
    · apply h.complete ha hf l content hl
      intro hmem
      exact hreported ⟨hmem, hpath⟩

/-- A commit adds the content of the reported file to what the session holds. -/
theorem Live.committed {s : BuildSession} {r : Usage.ScanResult} {k : Commit} {css : String}
    (h : b.Live entry e) (hk : b.Kept) (hc : b.adapter.Commits b.files path s r k)
    (he : e.Sound) (hd : e.DistinctClasses) (hsheet : k.engine.sheet .standard = .ok css) :
    Live entry e { b with
      adapter := { b.adapter.committed b.files path s k css with lastScan := some r.report }
      found := b.found ++ Usage.distinctTokens r.files
      unreported :=
        b.unreported \ {l | l.path = b.adapter.scanner.resolvePath b.files path} } := by
  obtain ⟨s', hs', hholds⟩ := h.session
  obtain rfl := Option.some.inj (hs'.symm.trans hc.session)
  have hran : b.adapter.scanner.Ran b.files (b.adapter.scanner.scanPaths b.files
      [b.adapter.scanner.resolvePath b.files path]).1 := Usage.Scanner.ran_after (.scanPaths _)
  refine ⟨h.mode, hran.running h.running, h.config, ⟨_, rfl, hc.holds hholds he hd hsheet⟩, ?_⟩
  intro ha hf l content hl hreported x hx
  have hl := hran.sameFiles.holds.1 hl
  -- the tokens of the reported file were found by this scan, and all others before
  by_cases hpath : l.path = b.adapter.scanner.resolvePath b.files path
  · apply List.mem_append_right
    obtain ⟨-, written, hat⟩ := hl
    have hwalk : b.files.Walkable l := hk.files.proper.walkable (by rw [hat]; rfl)
    have hscan := hc.scan
    rw [← hpath] at hscan
    exact hk.honest.mem_scanPaths hwalk hat hscan hx
  · apply List.mem_append_left
    have ha : b.Apart := ha.of_step rfl ⟨rfl, hran⟩ rfl
    refine h.complete ha hf l content hl ?_ hx
    intro hmem
    exact hreported ⟨hmem, hpath⟩

theorem Live.changed (h : b.Live entry e) (hk : b.Kept)
    (hn : ∀ n, entry.evaluate n .onDemand = .ok e) (he : e.Sound) (hd : e.DistinctClasses)
    {change : FileChange} (hr : (b.adapter.fileChanged b.files path).2 = .ok change) :
    (b.step (.changed path)).Live entry e := by
  have hchanged := Adapter.changed_fileChanged b.adapter b.files path
  cases hc : b.adapter.fileChanged b.files path with
  | mk a result =>
    rw [hc] at hchanged hr
    obtain rfl : result = .ok change := hr
    cases hchanged with
    | passed hnone huntaken hkeeps =>
      have hlive := h.passed hk hkeeps huntaken
      rcases hnone with rfl | rfl <;> simpa only [step, hc] using hlive
    | cold hrebuild =>
      obtain ⟨entry', n, a₁, s, hentry, hb, hkeeps, -, rfl⟩ := Adapter.rebuild_ok hrebuild
      obtain ⟨n', hn'⟩ := h.config
      obtain ⟨rfl, rfl⟩ := Prod.mk.inj (Option.some.inj (hentry.symm.trans hn'))
      simpa only [step, hc] using hk.live_cold hb hkeeps.setup h.mode (hn n) he hd
    | unchanged hcommits hreport =>
      obtain ⟨s, hs, hholds⟩ := h.session
      obtain rfl := Option.some.inj (hs.symm.trans hcommits.session)
      have hsheet := hholds.sheet
      rw [← (hcommits.same hreport).1] at hsheet
      simpa only [step, hc, scanTokens, hcommits.scan] using h.committed hk hcommits he hd hsheet
    | written hcommits _ hsheet =>
      simpa only [step, hc, scanTokens, hcommits.scan] using h.committed hk hcommits he hd hsheet

theorem Follows.live (h : b.Follows entry) (hn : ∀ n, entry.evaluate n .onDemand = .ok e)
    (hd : e.DistinctClasses) : b.Live entry e := by
  have he : e.Sound := (h.genuine 0 .onDemand e (hn 0)).sound
  induction h with
  | @compiled b css hb hg hm hr =>
    cases hc : b.adapter.compile b.files entry with
    | mk a result =>
      rw [hc] at hr
      obtain rfl : result = .ok css := hr
      obtain ⟨a₁, s, hbuilt, hkeeps, -, rfl⟩ := Adapter.compile_ok hc
      simpa only [step, hc, cold] using hb.kept.live_cold hbuilt hkeeps.setup hm (hn 0) he hd
  | edited _ edit ih => exact ih.edit edit
  | reported h hr ih => exact ih.changed h.reached.kept hn he hd hr

/-- The config of a build that follows its files could be evaluated. -/
theorem Follows.evaluates (h : b.Follows entry) : ∃ e, entry.evaluate 0 .onDemand = .ok e := by
  induction h with
  | @compiled b css hb hg hm hr =>
    cases hc : b.adapter.compile b.files entry with
    | mk a result =>
      rw [hc] at hr
      obtain rfl : result = .ok css := hr
      obtain ⟨a₁, s, hbuilt, -, -, -⟩ := Adapter.compile_ok hc
      obtain ⟨e, -, -, he, -⟩ := hbuilt.onDemand hm
      exact ⟨e, he⟩
  | edited _ _ ih => exact ih
  | reported _ _ ih => exact ih

/-! ## Incremental builds and cold builds -/

/-- **Incremental builds equal cold builds.** The sheet is that of a fresh evaluation with all tokens
that were found. If all content is reported and all tokens are still there, it is what a rebuild
leads to. -/
theorem Follows.css_eq (h : b.Follows entry)
    (hsame : ∀ n, entry.evaluate n .onDemand = entry.evaluate 0 .onDemand)
    (hd : ∀ e, entry.evaluate 0 .onDemand = .ok e → e.DistinctClasses) :
    ∃ e css, (∀ n, entry.evaluate n .onDemand = .ok e) ∧ b.adapter.css? = some css ∧
      (∀ tokens, (∀ t, t ∈ tokens ↔ t ∈ b.found) →
        ∃ k, (Commit.start e ∅).tokens tokens = .ok k ∧ k.engine.sheet .standard = .ok css) ∧
      (b.Apart → Usage.Faithful b.trees →
        (∀ l content, b.adapter.scanner.Holds b.files l content → l ∉ b.unreported) →
        (∀ t ∈ b.found, ∃ l content, b.adapter.scanner.Holds b.files l content ∧
          t ∈ Usage.Scanner.contentTokens content) →
        (b.adapter.rebuild b.files).2 = .ok css) := by
  obtain ⟨e, he⟩ := h.evaluates
  have hn (n : Nat) : entry.evaluate n .onDemand = .ok e := (hsame n).trans he
  have hsound : e.Sound := (h.genuine 0 .onDemand e he).sound
  have hlive := h.live hn (hd e he)
  obtain ⟨s, hs, hholds⟩ := hlive.session
  refine ⟨e, s.css, hn, ?served, ?fresh, ?rebuilt⟩
  case served =>
    rw [Adapter.css?, hs]
    rfl
  case fresh =>
    intro tokens hsame
    exact hholds.fresh hsound (hd e he) hsame
  case rebuilt =>
    intro ha hf hreported hthere
    obtain ⟨n, hentry⟩ := hlive.config
    obtain ⟨r, hr⟩ := Usage.Scanner.scan_of_stop_eq_none (t := b.files) hlive.running
    have hkept := h.reached.kept
    -- the scan of the rebuild finds the tokens that the session holds
    have hfound : ∀ t, t ∈ Usage.distinctTokens r.files ↔ t ∈ b.found := by
      intro t
      rw [hkept.honest.mem_scan hkept.files.proper (hkept.trusts hf) hr]
      constructor
      · rintro ⟨l, content, hl, ht⟩
        exact hlive.complete ha hf l content hl (hreported l content hl) ht
      · exact hthere t
    obtain ⟨k, hk, hsheet⟩ := hholds.fresh hsound (hd e he) hfound
    exact Adapter.rebuild_eq_ok hentry hlive.mode (hn n) hr hk hsheet

/-- A page whose margin was found after the compile. -/
def marginBuild : Build := (pageBuild Engine.margins "m:sm").step (.changed "/a.vue")

theorem sheet_margins : Engine.margins.sheet .standard = .ok ".m\\:sm { padding: 1px; }\n" := by
  cbv

/-- The report of the page succeeds. -/
theorem marginBuild_eq : ∃ a report,
    (pageBuild Engine.margins "m:sm").adapter.fileChanged (pageBuild Engine.margins "m:sm").files
      "/a.vue" = (a, .ok (.incremental report)) ∧
    a.config = forPages.config ∧ a.entry = some (steady Engine.margins, 1) ∧
    forPages.scanner.SameFiles a.scanner ∧
    marginBuild = ⟨a, page "m:sm", [FileTree.empty],
      Usage.distinctTokens [("/a.vue", Usage.Scanner.contentTokens "m:sm".toUTF8)],
      (∅ ∪ {l | (page "m:sm").at? l ≠ FileTree.empty.at? l}) \ {l | l.path = "/a.vue"}⟩ := by
  have htokens : Usage.distinctTokens [("/a.vue", Usage.Scanner.contentTokens "m:sm".toUTF8)] =
      ["m:sm", "sm"] := by cbv
  have hcommit : ((Commit.start Engine.margins ∅).tokens ["m:sm", "sm"]).toOption.map
      (fun k => (k.report.changed, (k.engine.sheet .standard).toOption)) =
        some (true, some ".m\\:sm { padding: 1px; margin: 4px; }\n") := by cbv
  cases hk : (Commit.start Engine.margins ∅).tokens ["m:sm", "sm"] with
  | error cause => simp [hk, Except.toOption] at hcommit
  | ok k =>
    simp only [hk, Except.toOption, Option.map_some, Option.some.injEq, Prod.mk.injEq] at hcommit
    rw [← htokens] at hk
    cases hsheet : k.engine.sheet .standard with
    | error cause => simp [hsheet] at hcommit
    | ok css =>
      obtain ⟨a, hreport, hrest⟩ := changed_pageBuild sheet_margins hk hcommit.1 hsheet
      exact ⟨a, _, hreport, hrest⟩

theorem genuine_margins : (steady Engine.margins).Genuine := by
  intro n mode engine h
  exact ⟨_, _, _, Except.ok.inj h⟩

theorem follows_marginBuild : marginBuild.Follows (steady Engine.margins) := by
  have hcompile := congrArg (·.2) (compile_forPages sheet_margins)
  obtain ⟨a, report, hreport, -⟩ := marginBuild_eq
  have hchanged := congrArg (·.2) hreport
  exact .reported (.edited (.compiled reached_forPages genuine_margins rfl hcompile) _) hchanged

/-- The page has had one content only. -/
theorem faithful_page (text : String) : Usage.Faithful [page text, FileTree.empty] := by
  apply Usage.faithful_of_entries (page text).entries
  · simp [FileTree.empty, FileTree.emptyFrom]
  · simp [page_eq]

theorem css_eq_margins : ∃ css, marginBuild.Follows (steady Engine.margins) ∧
    marginBuild.adapter.css? = some css ∧
    (marginBuild.adapter.rebuild marginBuild.files).2 = .ok css := by
  have hdistinct : ∀ e, (steady Engine.margins).evaluate 0 .onDemand = .ok e →
      e.DistinctClasses := by
    intro e he
    obtain rfl := Except.ok.inj he
    exact Engine.distinctClasses_margins
  obtain ⟨e, css, -, hcss, -, hrebuild⟩ := follows_marginBuild.css_eq (fun _ => rfl) hdistinct
  obtain ⟨a, report, -, hconfig, hentry, hfiles, heq⟩ := marginBuild_eq
  refine ⟨css, follows_marginBuild, hcss, hrebuild ?apart ?faithful ?reported ?there⟩
  case apart =>
    rw [heq]
    intro t _ l content _
    simp [Adapter.isConfigPath, Adapter.configPaths, hconfig, hentry, forPages, steady]
  case faithful =>
    rw [heq]
    exact faithful_page "m:sm"
  case reported =>
    rw [heq]
    rintro l content ⟨-, written, hat⟩ ⟨-, hl⟩
    rw [(at?_page hat).1] at hl
    exact hl (by decide)
  case there =>
    rw [heq]
    intro t ht
    refine ⟨["a.vue"], "m:sm".toUTF8, ⟨(hfiles.isContent _).trans isContent_forPages, _, rfl⟩, ?_⟩
    simpa [Usage.mem_distinctTokens] using ht

end Build

end AtomicCss
