import AtomicCss.Proofs.Build.Incremental
import AtomicCss.Proofs.Build.Renewal
import AtomicCss.Proofs.Session.Extension

/-! # What is served

The sheet of a session is a copy that is written anew when something was generated. As long as no
report fails because of the config, it is the sheet of the live engine, and every container in the
cache exists in the document of that engine (`Smooth.served_eq_sheet`). -/

namespace AtomicCss

/-! ## Containers in the cache -/

/-- All containers that the cache lists exist in the document. -/
def SessionCache.Within (c : SessionCache) (d : Document) : Prop :=
  ∀ x ∈ c.entries, ∀ id ∈ x.containers, d.contains id = true

theorem SessionCache.within_empty (d : Document) : (∅ : SessionCache).Within d := by
  intro x hx
  cases hx

/-- The containers in which classes land exist afterwards. -/
theorem Document.AdmitsAll.contains_landings {d : Document} {xs : List Emission} (h : d.AdmitsAll xs)
    {id : ContainerId} (hid : id ∈ d.landings xs) : (d.absorbAll xs).contains id = true := by
  have htext := List.mem_map_of_mem (f := (d.absorbAll xs).selectorText?) hid
  rw [h.selectorText?_landings] at htext
  obtain ⟨x, -, hx⟩ := List.mem_map.1 htext
  obtain ⟨c, hc, -⟩ := Option.bind_eq_some_iff.1 hx.symm
  rw [Document.contains, hc]
  rfl

namespace Commit

variable {k k' : Commit} {t : String} {ts : List String} {id : GeneratorId}

theorem pair_within (hs : k.engine.Sound) (h : k.pair t id = .ok k')
    (hw : k.cache.Within k.engine.document) : k'.cache.Within k'.engine.document := by
  rcases pair_cases hs h with ⟨he, hc⟩ | ⟨g, -, hadmits, -, -, hdocument, hcache⟩
  · rwa [he, hc]
  · rw [hdocument, hcache]
    intro x hx i hi
    rcases List.mem_cons.1 ((SessionCache.place_perm _ _).mem_iff.1 hx) with rfl | hx
    · exact hadmits.contains_landings hi
    · exact (Document.Keeps.absorbAll _ _).contains (hw x hx i hi)

/-- **A commit keeps the cache within the document.** -/
theorem tokens_within (hs : k.engine.Sound) (h : k.tokens ts = .ok k') :
    k.cache.Within k.engine.document → k'.cache.Within k'.engine.document :=
  tokens_rel (R := fun k k' => k.cache.Within k.engine.document → k'.cache.Within k'.engine.document)
    (fun _ hw => hw) (fun h h' hw => h' (h hw)) pair_within hs h

end Commit

/-! ## Live sessions -/

/-- The sheet of the session is that of its engine, and its cache lists containers of the engine's
document. -/
structure BuildSession.Live (s : BuildSession) : Prop where
  sheet : s.engine.sheet .standard = .ok s.css
  cache : s.cache.Within s.engine.document

namespace Adapter

variable {a a' : Adapter} {t : FileTree} {path : String} {s : BuildSession}

/-- The session of the adapter is live, if there is one. -/
def Live (a : Adapter) : Prop := ∀ s, a.session = some s → s.Live

theorem Live.of_session_eq (h : a.Live) (hs : a'.session = a.session) : a'.Live := by
  intro s hsome
  exact h s (hs.symm.trans hsome)

/-- A cold build starts a live session. -/
theorem ColdBuilt.live {entry : ConfigEntry} {n : Nat} (h : a.ColdBuilt t entry n a' s)
    (hg : entry.Genuine) : s.Live where
  sheet := h.sheet
  cache := by
    cases hm : a.config.effectiveMode with
    | eager =>
      rw [(h.eager hm).2.1]
      exact SessionCache.within_empty _
    | onDemand =>
      obtain ⟨engine, result, k, he, -, hk, hengine, hcache, -⟩ := h.onDemand hm
      have hstart : (Commit.start engine ∅).engine.Sound := (hg _ _ _ he).sound
      rw [hengine, hcache]
      exact Commit.tokens_within hstart hk (SessionCache.within_empty _)

theorem live_compile (h : a.Live) {entry : ConfigEntry} (hg : entry.Genuine) :
    (a.compile t entry).1.Live := by
  cases hc : a.compile t entry with
  | mk a' result =>
    cases result with
    | error cause => exact h.of_session_eq (compile_error hc).session
    | ok css =>
      obtain ⟨a₁, session, hb, -, -, rfl⟩ := compile_ok hc
      intro s hs
      obtain rfl := Option.some.inj hs
      exact hb.live hg

theorem live_rebuild (h : a.Live) (ha : a.Sound) : (a.rebuild t).1.Live := by
  cases hc : a.rebuild t with
  | mk a' result =>
    cases result with
    | error cause => exact h.of_session_eq (rebuild_error hc).2.1
    | ok css =>
      obtain ⟨entry, n, a₁, session, he, hb, -, -, rfl⟩ := rebuild_ok hc
      intro s hs
      obtain rfl := Option.some.inj hs
      exact hb.live (ha.entry he)

/-- A commit whose sheet is written leaves the session live. -/
theorem Commits.live {r : Usage.ScanResult} {k : Commit} {css : String}
    (hc : a.Commits t path s r k) (h : a.Live) (ha : a.Sound)
    (hsheet : k.engine.sheet .standard = .ok css) :
    BuildSession.Live { s with engine := k.engine, cache := k.cache, css } where
  sheet := hsheet
  cache := Commit.tokens_within (k := .start s.engine s.cache) (ha.session hc.session) hc.commit
    (h s hc.session).cache

/-- A report keeps the session live, unless it fails because of the config. -/
theorem Changed.live {result : Except BuildError FileChange} (hc : a.Changed t path a' result)
    (h : a.Live) (ha : a.Sound) (hr : ∀ cause, result ≠ .error (.core cause)) : a'.Live := by
  cases hc with
  | failed _ hs _ => exact h.of_session_eq hs
  | passed _ _ hk => exact h.of_session_eq hk.session
  | cold hrebuild =>
    have := live_rebuild (t := t) h ha
    rwa [hrebuild] at this
  | refused _ _ _ => exact absurd rfl (hr _)
  | unchanged hcommits hreport =>
    intro s' hs'
    obtain rfl := Option.some.inj hs'
    apply hcommits.live h ha
    -- nothing was generated, so the sheet from before is still right
    rw [(hcommits.same hreport).1]
    exact (h _ hcommits.session).sheet
  | written hcommits _ hsheet =>
    intro s' hs'
    obtain rfl := Option.some.inj hs'
    exact hcommits.live h ha hsheet
  | stranded _ _ _ => exact absurd rfl (hr _)

end Adapter

/-! ## Builds without refusals -/

namespace Build

variable {b : Build}

/-- The event is a report that fails because of the config. -/
def Refuses (b : Build) : BuildEvent → Prop
  | .changed path => ∃ cause, (b.adapter.fileChanged b.files path).2 = .error (.core cause)
  | _ => False

/-- The builds that events lead to, none of them a report that fails because of the config. -/
inductive Smooth : Build → Prop
  | new {files : FileTree} {config : BuildConfig} {adapter : Adapter} (hf : files.Reached)
      (ha : Adapter.new files config = .ok adapter) : Smooth ⟨adapter, files, [], [], ∅⟩
  | step {b : Build} (hb : Smooth b) {e : BuildEvent} (he : e.Genuine) (hr : ¬ b.Refuses e) :
      Smooth (b.step e)

theorem Smooth.reached (h : b.Smooth) : b.Reached := by
  induction h with
  | new hf ha => exact .new hf ha
  | step _ he _ ih => exact .step ih he

/-- One event keeps the session live. -/
theorem live_step (hb : b.Reached) (h : b.adapter.Live) {e : BuildEvent} (he : e.Genuine)
    (hr : ¬ b.Refuses e) : (b.step e).adapter.Live := by
  cases e with
  | edit e => exact h
  | compile entry =>
    rw [adapter_compile]
    exact Adapter.live_compile h he
  | rebuild =>
    rw [adapter_rebuild]
    exact Adapter.live_rebuild h hb.sound
  | changed path =>
    rw [adapter_changed]
    apply (Adapter.changed_fileChanged b.adapter b.files path).live h hb.sound
    intro cause hcause
    exact hr ⟨cause, hcause⟩
  | scanner call => exact h.of_session_eq rfl
  | cancel looks => exact h.of_session_eq rfl

theorem Smooth.live (h : b.Smooth) : b.adapter.Live := by
  induction h with
  | new _ ha =>
    intro s hs
    simp [(Adapter.new_ok ha).1] at hs
  | step hb he hr ih => exact live_step hb.reached ih he hr

/-- **What is served is the sheet of the live engine**, and the cache lists containers of that engine's
document. -/
theorem Smooth.served_eq_sheet (h : b.Smooth) {e : Engine} (he : b.adapter.engine = .ok e) :
    ∃ s css, b.adapter.session = some s ∧ s.engine = e ∧ b.adapter.css? = some css ∧
      e.sheet .standard = .ok css ∧
      ∀ x ∈ s.cache.entries, ∀ id ∈ x.containers, e.document.contains id = true := by
  cases hs : b.adapter.session with
  | none => simp [Adapter.engine, hs] at he
  | some s =>
    obtain rfl : s.engine = e := by simpa [Adapter.engine, hs] using he
    refine ⟨s, s.css, rfl, rfl, ?_, (h.live s hs).sheet, (h.live s hs).cache⟩
    rw [Adapter.css?, hs]
    rfl

theorem served_eq_sheet_margins : ∃ e s css, marginBuild.adapter.engine = .ok e ∧
    marginBuild.adapter.session = some s ∧ marginBuild.adapter.css? = some css ∧
    e.sheet .standard = .ok css ∧
    ∀ x ∈ s.cache.entries, ∀ id ∈ x.containers, e.document.contains id = true := by
  obtain ⟨a, report, hreport, -⟩ := marginBuild_eq
  -- the compile, the edit and the report of the page all succeed
  have hstart : Smooth ⟨forPages, FileTree.empty, [], [], ∅⟩ :=
    .new ⟨[], [], rfl⟩ (show Adapter.new _ ⟨["*.vue"], "/", none, none, none⟩ = _ from rfl)
  have hcompiled := hstart.step (e := .compile (steady Engine.margins)) genuine_margins id
  have hedited := hcompiled.step (e := .edit (.write "/a.vue" "m:sm".toUTF8 none)) trivial id
  have hreported : ¬ (pageBuild Engine.margins "m:sm").Refuses (.changed "/a.vue") := by
    rintro ⟨cause, hcause⟩
    rw [hreport] at hcause
    cases hcause
  have hsmooth : marginBuild.Smooth := .step hedited (e := .changed "/a.vue") trivial hreported
  obtain ⟨e, css, -, hcss, -⟩ := follows_marginBuild.css_eq (fun _ => rfl) (by
    intro e he
    obtain rfl := Except.ok.inj he
    exact Engine.distinctClasses_margins)
  obtain ⟨s, hs, -⟩ := Option.map_eq_some_iff.1 hcss
  have hengine : marginBuild.adapter.engine = .ok s.engine := by
    rw [Adapter.engine, hs]
    rfl
  obtain ⟨s', css, hs', hs, hcss, hsheet, hcache⟩ := hsmooth.served_eq_sheet hengine
  exact ⟨_, s', css, hengine, hs', hcss, hsheet, hcache⟩

end Build

end AtomicCss
