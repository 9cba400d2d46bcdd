import AtomicCss.Proofs.Build.Run
import Mathlib

/-! # Reports that fail

A report of a changed file that fails leaves the session as it was, with one exception: a commit
whose sheet cannot be written stays. What the session serves is then not the sheet of its engine,
and the next report of the same file is a success nevertheless, for there is nothing left to
commit. -/

namespace AtomicCss

namespace Adapter

variable {a a' : Adapter} {t : FileTree} {path : String} {change : FileChange}

/-- What a session shows: its document, what was committed into it, and its sheet. -/
def served (a : Adapter) : Option (Document × SessionCache × String) :=
  a.session.map fun s => (s.engine.document, s.cache, s.css)

/-- The session serves the sheet of its engine. -/
def Current (a : Adapter) : Prop :=
  ∀ s, a.session = some s → s.engine.sheet .standard = .ok s.css

/-- The report commits something, and the sheet with it cannot be written. -/
def Strands (a : Adapter) (t : FileTree) (path : String) : Prop :=
  ∃ s r k cause, a.Commits t path s r k ∧ k.report.changed = true ∧
    k.engine.sheet .standard = .error cause

/-! ## Reports that succeed -/

theorem Commits.grows {s : BuildSession} {r : Usage.ScanResult} {k : Commit}
    (h : a.Commits t path s r k) : (Commit.start s.engine s.cache).Grows k :=
  Commit.tokens_grows h.commit

/-- A commit that generates nothing leaves the engine and the cache as they were. -/
theorem Commits.same {s : BuildSession} {r : Usage.ScanResult} {k : Commit}
    (h : a.Commits t path s r k) (hk : k.report.changed = false) :
    k.engine = s.engine ∧ k.cache = s.cache := by
  have hnone : k.report.newEntries = 0 := by simpa [CommitReport.changed] using hk
  exact h.grows.same hnone

theorem rebuild_current {css : String} (h : a.rebuild t = (a', .ok css)) : a'.Current := by
  obtain ⟨entry, n, a₁, session, -, hb, -, -, rfl⟩ := rebuild_ok h
  intro s hs
  obtain rfl := Option.some.inj hs
  exact hb.sheet

/-- After a success, the session serves the sheet of its engine if it did so before. -/
theorem Changed.current (h : a.Changed t path a' (.ok change)) (ha : a.Current) : a'.Current := by
  cases h with
  | passed _ _ hk =>
    intro s hs
    rw [hk.session] at hs
    exact ha s hs
  | cold hr => exact rebuild_current hr
  | @unchanged s _ k hc hk =>
    intro s' hs
    obtain rfl := Option.some.inj hs
    show k.engine.sheet .standard = .ok s.css
    rw [(hc.same hk).1]
    exact ha s hc.session
  | written _ _ hsheet =>
    intro s hs
    obtain rfl := Option.some.inj hs
    exact hsheet

/-! ## Reports that strand a commit -/

section Strands

variable {s : BuildSession} {r : Usage.ScanResult} {k : Commit} {cause : Error}

theorem takesContent_committed {css : String} (h : a.TakesContent t path) :
    (a.committed t path s k css).TakesContent t path := by
  have hfiles : a.scanner.SameFiles (a.committed t path s k css).scanner :=
    Usage.Scanner.sameFiles_after (.scanPaths _)
  refine ⟨?_, ?_, ?_, h.mode⟩
  · have := h.config
    unfold isConfigPath at this ⊢
    simp only [hfiles.resolvePath]
    exact this
  · rw [hfiles.resolvePath, hfiles.isContent]
    exact h.content
  · rw [hfiles.resolvePath]
    exact h.present

theorem fileChanged_of_strands (h : a.Commits t path s r k) (hk : k.report.changed = true)
    (hsheet : k.engine.sheet .standard = .error cause) :
    a.fileChanged t path = (a.committed t path s k s.css, .error (.core cause)) := by
  rw [fileChanged_of_takesContent h.session h.takes, contentChanged_of_commits h, if_pos hk, hsheet]

/-- What was committed once is found again, and it is found in the cache. -/
theorem fileChanged_again (h : a.Commits t path s r k) (css : String) :
    ∃ a' report, (a.committed t path s k css).fileChanged t path = (a', .ok (.incremental report)) ∧
      report.newEntries = 0 ∧ a'.session = some { s with engine := k.engine, cache := k.cache, css } := by
  have hfiles : a.scanner.SameFiles (a.committed t path s k css).scanner :=
    Usage.Scanner.sameFiles_after (.scanPaths _)
  obtain ⟨r', hr', hfound⟩ := Usage.Scanner.scanPaths_again h.scan
  have hcached : ∀ x ∈ Usage.distinctTokens r'.files,
      ∀ id ∈ (Commit.start k.engine k.cache).engine.generatorsFor x,
        (Commit.start k.engine k.cache).cache.contains id x = true := by
    rw [hfound]
    intro x hx id hid
    rw [show (Commit.start k.engine k.cache).engine = k.engine from rfl, h.grows.generatorsFor] at hid
    exact (Commit.tokens_contains h.commit).2 (.inl ⟨hx, hid⟩)
  -- so the second commit has nothing to generate
  obtain ⟨k', hk', he, hc, hn⟩ := Commit.tokens_of_cached hcached
  have hagain : (a.committed t path s k css).Commits t path
      { s with engine := k.engine, cache := k.cache, css } r' k' := by
    refine ⟨rfl, takesContent_committed h.takes, ?_, hk'⟩
    rw [hfiles.resolvePath]
    exact hr'
  have hnone : k'.report.newEntries = 0 := hn
  have hreport : k'.report.changed = false := by simp [CommitReport.changed, hnone]
  have hchanged := contentChanged_of_commits hagain
  rw [hreport] at hchanged
  refine ⟨_, k'.report,
    (fileChanged_of_takesContent hagain.session hagain.takes).trans hchanged, hnone, ?_⟩
  show some _ = some _
  rw [he, hc]
  rfl

end Strands

end Adapter

namespace Build

variable {b : Build} {path : String} {a : Adapter} {cause : BuildError}

/-- **What a report that fails leaves behind.** The sheet stays. So do the document and the cache,
unless the report strands a commit; then the next report of the file is a success that commits
nothing and leaves the sheet as it was. Only a stranded commit leads there. -/
theorem fileChanged_error (hb : b.Reached)
    (h : b.adapter.fileChanged b.files path = (a, .error cause)) :
    a.css? = b.adapter.css? ∧
    (a.served = b.adapter.served ↔ ¬ b.adapter.Strands b.files path) ∧
    (b.adapter.Strands b.files path → ∃ a' report,
      a.fileChanged b.files path = (a', .ok (.incremental report)) ∧ report.newEntries = 0 ∧
      a'.css? = a.css? ∧ ¬ a'.Current) ∧
    (b.adapter.Current → ¬ b.adapter.Strands b.files path →
      ∀ a' change, a.fileChanged b.files path = (a', .ok change) → a'.Current) := by
  by_cases hs : b.adapter.Strands b.files path
  · obtain ⟨s, r, k, cause', hc, hk, hsheet⟩ := id hs
    rw [Adapter.fileChanged_of_strands hc hk hsheet] at h
    obtain ⟨rfl, -⟩ := Prod.mk.inj h
    refine ⟨?css, ?served, ?again, ?current⟩
    case css =>
      simp [Adapter.css?, Adapter.committed, hc.session]
    case served =>
      refine iff_of_false ?_ (not_not_intro hs)
      intro heq
      -- the cache has grown
      have hcache : k.cache = s.cache := by
        simp only [Adapter.served, Adapter.committed, hc.session, Option.map_some,
          Option.some.injEq, Prod.mk.injEq] at heq
        exact heq.2.1
      have hsize := hc.grows.size
      rw [hcache] at hsize
      have hnone : k.report.newEntries = 0 := by
        simpa [Commit.start, CommitReport.empty] using hsize
      simp [CommitReport.changed, hnone] at hk
    case again =>
      intro _
      obtain ⟨a', report, ha', hn, hsession⟩ := Adapter.fileChanged_again hc s.css
      refine ⟨a', report, ha', hn, ?_, ?_⟩
      · simp [Adapter.css?, hsession, Adapter.committed]
      · intro hcurrent
        have := hcurrent _ hsession
        simp [hsheet] at this
    case current =>
      intro _ hns
      exact absurd hs hns
  · -- nothing else that fails touches the session
    have hchanged := Adapter.changed_fileChanged b.adapter b.files path
    rw [h] at hchanged
    have hsession : a.session = b.adapter.session := by
      cases hchanged with
      | failed _ hsession _ => exact hsession
      | refused _ hsome hk =>
        obtain ⟨k', hk', -⟩ := (hb.sound.session hsome).tokens_ok (k := .start _ _) _
        rw [hk] at hk'
        cases hk'
      | stranded hc hk hsheet => exact absurd ⟨_, _, _, _, hc, hk, hsheet⟩ hs
    have hserved : a.served = b.adapter.served := by
      rw [Adapter.served, hsession]
      rfl
    refine ⟨?css, iff_of_true hserved hs, ?again, ?current⟩
    case css =>
      rw [Adapter.css?, hsession]
      rfl
    case again =>
      intro hs'
      exact absurd hs' hs
    case current =>
      intro hcurrent _ a' change ha'
      have hagain := Adapter.changed_fileChanged a b.files path
      rw [ha'] at hagain
      apply hagain.current
      intro s hsome
      rw [hsession] at hsome
      exact hcurrent s hsome

/-! ## A build with one page -/

section Page

variable {e : Engine} {css text : String}

/-- An entry that evaluates to the same engine every time. -/
def steady (e : Engine) : ConfigEntry := ⟨none, fun _ _ => .ok e⟩

/-- A new adapter for pages. -/
def forPages : Adapter where
  config := ⟨["*.vue"], "/", none, none, none⟩
  scanner := ⟨[], ["*.vue"], [[.many, .literal '.', .literal 'v', .literal 'u', .literal 'e']], [],
    none⟩
  entry := none
  session := none
  lastScan := none

/-- The adapter after the config was compiled without any page. -/
def pageless (e : Engine) (css : String) : Adapter :=
  { forPages with
    entry := some (steady e, 1)
    session := some ⟨e, ∅, css, none⟩
    lastScan := some ⟨0, 0, 0, []⟩ }

/-- Files with one page. -/
def page (text : String) : FileTree := FileTree.empty.edit (.write "/a.vue" text.toUTF8 none)

theorem page_eq : page text = ⟨[(["a.vue"], .file text.toUTF8 (.tick 0))], 1, []⟩ := rfl

theorem at?_page {l : Location} {content : ByteArray} {written : WriteTime}
    (h : (page text).at? l = some (.file content written)) :
    l = ["a.vue"] ∧ content = text.toUTF8 := by
  rcases FileTree.at?_of_entries (by rw [page_eq]) h with ⟨-, he⟩ | ⟨rfl, he⟩
  · cases he
  · exact ⟨rfl, (FileEntry.file.inj he).1⟩

/-- The build in which the page is written after the compile. -/
def pageBuild (e : Engine) (text : String) : Build :=
  (step ⟨forPages, FileTree.empty, [], [], ∅⟩ (.compile (steady e))).step
    (.edit (.write "/a.vue" text.toUTF8 none))

theorem reached_forPages : Reached ⟨forPages, FileTree.empty, [], [], ∅⟩ :=
  .new ⟨[], [], rfl⟩ (show Adapter.new _ ⟨["*.vue"], "/", none, none, none⟩ = _ from rfl)

theorem reached_pageBuild (hg : (steady e).Genuine) : (pageBuild e text).Reached :=
  .step (.step reached_forPages (e := .compile _) hg) (e := .edit _) trivial

theorem compile_forPages (h : e.sheet .standard = .ok css) :
    forPages.compile FileTree.empty (steady e) = (pageless e css, .ok css) := by
  have hscan : forPages.scan (·.scan FileTree.empty) = (forPages, .ok ⟨[], ⟨0, 0, 0, []⟩⟩) := by cbv
  have htokens : Usage.distinctTokens [] = [] := by cbv
  have hmode : forPages.config.effectiveMode = .onDemand := rfl
  have hcommit : (Commit.start e ∅).tokens [] = .ok (.start e ∅) := rfl
  have hsheet : (Commit.start e ∅).engine.sheet .standard = .ok css := h
  simp only [Adapter.compile, Adapter.coldSession, hmode, steady, hscan, htokens, hcommit,
    Adapter.startSession, hsheet, Except.mapError, bind, Except.bind]
  rfl

theorem locate_page : (page text).locate "/a.vue" = .ok ["a.vue"] := by
  have hsegments : (Path.segments "/a.vue").tail = ["a.vue"] := by decide +kernel
  rw [page_eq, FileTree.locate, if_neg (by decide), FileTree.absolute_eq (by decide), hsegments]
  rfl

theorem resolvePath_pageless :
    (pageless e css).scanner.resolvePath (page text) "/a.vue" = "/a.vue" := by
  rw [Usage.Scanner.resolvePath, show Path.join _ "/a.vue" = "/a.vue" from if_pos (by decide),
    locate_page]
  rfl

theorem isContent_forPages : forPages.scanner.isContent "/a.vue" = true := by
  have hbelow : Path.below? forPages.scanner.root "/a.vue" = some "a.vue" := by
    simp only [forPages, Path.below?, Path.segmentsBehind]
    decide +kernel
  rw [Usage.Scanner.isContent, Usage.Scanner.patternIndex?, hbelow]
  decide +kernel

theorem takesContent_pageless : (pageless e css).TakesContent (page text) "/a.vue" where
  config := rfl
  content := by
    rw [resolvePath_pageless]
    exact isContent_forPages
  present := by
    rw [resolvePath_pageless, FileTree.pathExists, locate_page]
    rfl
  mode := rfl

theorem scanPaths_pageless : ∃ r,
    ((pageless e css).scanner.scanPaths (page text)
      [(pageless e css).scanner.resolvePath (page text) "/a.vue"]).2 = .ok r ∧
    r.files = [("/a.vue", Usage.Scanner.contentTokens text.toUTF8)] := by
  have hlookup : (page text).lookup "/a.vue" = .ok (.file text.toUTF8 (.tick 0)) := by
    simp only [FileTree.lookup, locate_page, bind, Except.bind]
    rfl
  have hfile : (pageless e css).scanner.scanFile (page text) true "/a.vue" =
      .extracted ⟨"/a.vue", .tick 0, text.toUTF8, Usage.Scanner.contentTokens text.toUTF8⟩ := by
    rw [Usage.Scanner.scanFile, hlookup]
    rfl
  rw [resolvePath_pageless, Usage.Scanner.scanPaths, List.map_singleton, resolvePath_pageless]
  refine ⟨_, Usage.Scanner.scanFiles_of_stop_eq_none rfl ["/a.vue"] true, ?_⟩
  rw [Usage.Scanner.files_told, List.filterMap_cons, hfile]
  rfl

/-- The build before the page is reported. -/
theorem pageBuild_eq (h : e.sheet .standard = .ok css) :
    pageBuild e text = ⟨pageless e css, page text, [FileTree.empty], [],
      ∅ ∪ {l | (page text).at? l ≠ FileTree.empty.at? l}⟩ := by
  have hcold : coldTokens ⟨forPages, FileTree.empty, [], [], ∅⟩ = [] := by cbv
  simp only [pageBuild, step, compile_forPages h, cold, hcold]
  rfl

theorem commits_pageless {k : Commit}
    (hk : (Commit.start e ∅).tokens
      (Usage.distinctTokens [("/a.vue", Usage.Scanner.contentTokens text.toUTF8)]) = .ok k) :
    ∃ r, (pageless e css).Commits (page text) "/a.vue" ⟨e, ∅, css, none⟩ r k ∧
      r.files = [("/a.vue", Usage.Scanner.contentTokens text.toUTF8)] := by
  obtain ⟨r, hr, hfiles⟩ := @scanPaths_pageless e css text
  rw [← hfiles] at hk
  exact ⟨r, ⟨rfl, takesContent_pageless, hr, hk⟩, hfiles⟩

/-- The build with one page after the page is reported. -/
theorem changed_pageBuild {css' : String} {k : Commit}
    (h : e.sheet .standard = .ok css)
    (hk : (Commit.start e ∅).tokens
      (Usage.distinctTokens [("/a.vue", Usage.Scanner.contentTokens text.toUTF8)]) = .ok k)
    (hchanged : k.report.changed = true) (hsheet : k.engine.sheet .standard = .ok css') :
    ∃ a, (pageBuild e text).adapter.fileChanged (pageBuild e text).files "/a.vue" =
        (a, .ok (.incremental k.report)) ∧
      a.config = forPages.config ∧ a.entry = some (steady e, 1) ∧
      forPages.scanner.SameFiles a.scanner ∧
      (pageBuild e text).step (.changed "/a.vue") = ⟨a, page text, [FileTree.empty],
        Usage.distinctTokens [("/a.vue", Usage.Scanner.contentTokens text.toUTF8)],
        (∅ ∪ {l | (page text).at? l ≠ FileTree.empty.at? l}) \ {l | l.path = "/a.vue"}⟩ := by
  obtain ⟨r, hc, hfiles⟩ := @commits_pageless e css text k hk
  have hreport := (Adapter.fileChanged_of_takesContent hc.session hc.takes).trans
    (Adapter.contentChanged_of_commits hc)
  rw [if_pos hchanged, hsheet] at hreport
  have hscan := hc.scan
  rw [resolvePath_pageless] at hscan
  rw [pageBuild_eq h]
  have hsame : (pageless e css).scanner.SameFiles ((pageless e css).scanner.scanPaths (page text)
      [(pageless e css).scanner.resolvePath (page text) "/a.vue"]).1 :=
    Usage.Scanner.sameFiles_after (.scanPaths _)
  refine ⟨_, hreport, rfl, rfl, ?_, ?_⟩
  · simp only [Adapter.committed]
    exact hsame
  · simp only [step, hreport, resolvePath_pageless, hscan, scanTokens, hfiles, List.nil_append]

end Page

/-- A config with one class, whose margin is a variable that nothing declares. -/
def undeclared : Engine :=
  (Engine.new "app" .onDemand).run [.addUtility (.ofProperty "m" "margin"),
    .useUtility 0 (some (ValueTable.ofList [("a", .ref ⟨"missing"⟩)]))]

theorem strands_undeclared : (pageless undeclared "").Strands (page "m:a") "/a.vue" := by
  have htokens : Usage.distinctTokens [("/a.vue", Usage.Scanner.contentTokens "m:a".toUTF8)] =
      ["a", "m:a"] := by cbv
  have hcommit : ((Commit.start undeclared ∅).tokens ["a", "m:a"]).toOption.map
      (fun k => (k.report.changed, (k.engine.sheet .standard).toOption)) = some (true, none) := by
    cbv
  cases hk : (Commit.start undeclared ∅).tokens ["a", "m:a"] with
  | error cause => simp [hk, Except.toOption] at hcommit
  | ok k =>
    simp only [hk, Except.toOption, Option.map_some, Option.some.injEq, Prod.mk.injEq] at hcommit
    cases hsheet : k.engine.sheet .standard with
    | ok css => simp [hsheet] at hcommit
    | error cause =>
      rw [← htokens] at hk
      obtain ⟨r, hc, -⟩ := commits_pageless hk
      exact ⟨_, r, k, cause, hc, hcommit.1, hsheet⟩

theorem fileChanged_error_undeclared : ∃ a cause a' report,
    (pageBuild undeclared "m:a").Reached ∧
    (pageBuild undeclared "m:a").adapter.fileChanged (page "m:a") "/a.vue" = (a, .error cause) ∧
    a.css? = some "" ∧ a.served ≠ (pageBuild undeclared "m:a").adapter.served ∧
    a.fileChanged (page "m:a") "/a.vue" = (a', .ok (.incremental report)) ∧ ¬ a'.Current := by
  have hsheet : undeclared.sheet .standard = .ok "" := by cbv
  have hreached : (pageBuild undeclared "m:a").Reached := by
    apply reached_pageBuild
    intro n mode engine h
    exact ⟨_, _, _, Except.ok.inj h⟩
  have heq := @pageBuild_eq _ _ "m:a" hsheet
  obtain ⟨s, r, k, cause, hc, hk, hcause⟩ := id strands_undeclared
  have herror := Adapter.fileChanged_of_strands hc hk hcause
  rw [heq] at hreached ⊢
  obtain ⟨hcss, hserved, hagain, -⟩ := fileChanged_error hreached herror
  obtain ⟨a', report, ha', -, -, hcurrent⟩ := hagain strands_undeclared
  refine ⟨_, _, a', report, hreached, herror, hcss, ?_, ha', hcurrent⟩
  intro hsame
  exact hserved.1 hsame strands_undeclared

end Build

end AtomicCss
