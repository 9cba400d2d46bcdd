import AtomicCss.Proofs.Build.Incremental
import AtomicCss.Proofs.Build.Renewal
import AtomicCss.Proofs.Session.Extension

/-! # Sessions are monotone

Between two cold builds the cache only grows, and what was served is never taken back: each rule of
an earlier sheet is in all later ones, in the same order, and keeps its properties in front
(`Build.Continues.monotone`). This holds for failures and cancellations on the way, too: a sheet that
is served was written at some moment, and a later one not before that. -/

namespace AtomicCss

/-- The css consists of the texts of the pieces of the engine's document. -/
def Engine.Shows (e : Engine) (css : String) : Prop :=
  ∃ texts, Writer.texts ⟨e.vars, e.name, Layout.standard.indent⟩ e.document.pieces = .ok texts ∧
    css = "".intercalate texts

theorem Engine.shows_iff {e : Engine} {css : String} : e.Shows css ↔ e.sheet .standard = .ok css := by
  rw [Engine.sheet, Document.sheet_eq, Engine.Shows]
  cases Writer.texts ⟨e.vars, e.name, Layout.standard.indent⟩ e.document.pieces with
  | error cause => simp [Except.map]
  | ok texts => simp [Except.map, Layout.standard, eq_comm]

/-! ## Sessions -/

namespace BuildSession

variable {s s' s'' : BuildSession}

/-- A later session has more in its document and in its cache. -/
structure Extends (s s' : BuildSession) : Prop where
  document : s.engine.document.Extends s'.engine.document
  cache : s.cache.Extends s'.cache
  sound : s'.engine.Sound

theorem Step.extends (h : s.Step s') (hs : s.engine.Sound) : s.Extends s' := by
  cases h with
  | commit commit _ =>
    have hk := Commit.tokens_extends (k := .start s.engine s.cache) hs commit
    exact ⟨hk.document, hk.cache, hk.sound⟩

theorem Advances.extends (h : s.Advances s') (hs : s.engine.Sound) : s.Extends s' := by
  induction h with
  | refl => exact ⟨.refl _, .refl _, hs⟩
  | tail _ hstep ih =>
    have hlast := hstep.extends ih.sound
    exact ⟨ih.document.trans hlast.document, ih.cache.trans hlast.cache, hlast.sound⟩

end BuildSession

namespace Build

variable {b b' b₁ b₂ w : Build} {e : BuildEvent}

/-! ## When a sheet was written -/

/-- The sheet that a build serves is that of an engine at an earlier moment. -/
structure WrittenAt (b w : Build) (s r : BuildSession) : Prop where
  continues : w.Continues b
  session : b.adapter.session = some s
  writer : w.adapter.session = some r
  shows : r.engine.Shows s.css

/-- A later sheet was written later, or it is still the same. -/
theorem Continues.written {s r : BuildSession} (h : b.Continues b') (hb : b.Reached)
    (hw : b.WrittenAt w s r) :
    ∃ w' s' r', w.Continues w' ∧ b'.WrittenAt w' s' r' := by
  induction h with
  | refl => exact ⟨w, s, r, .refl, hw⟩
  | @step b' e h he hkeep ih =>
    obtain ⟨w', s', r', hcontinues, hw'⟩ := ih
    obtain ⟨s'', hs'', hstep⟩ := (carries_step (h.reached hb) hkeep).session s' hw'.session
    have hlater := hw'.continues.step he hkeep
    rcases hstep with _ | ⟨commit, hsame | hsheet⟩
    · exact ⟨w', s', r', hcontinues, hlater, hs'', hw'.writer, hw'.shows⟩
    · refine ⟨w', _, r', hcontinues, hlater, hs'', hw'.writer, ?_⟩
      rw [hsame]
      exact hw'.shows
    · exact ⟨_, _, _, hcontinues.trans hlater, .refl, hs'', hs'', Engine.shows_iff.2 hsheet⟩

/-- The main result. In a session, the cache only grows, and no entry changes. Any two sheets that are
served were written at two moments in the same order, and the rules of the first one embed in the
rules of the second one. -/
theorem Continues.monotone (hb : b.Reached) (he : e.Genuine) (hr : b.Renews e)
    (h₁ : (b.step e).Continues b₁) (h₂ : b₁.Continues b₂) :
    ∃ w₁ w₂ s₁ s₂ r₁ r₂, (b.step e).Continues w₁ ∧ w₁.Continues w₂ ∧
      b₁.WrittenAt w₁ s₁ r₁ ∧ b₂.WrittenAt w₂ s₂ r₂ ∧ s₁.cache.Extends s₂.cache ∧
      Rule.Embeds r₁.engine.document.rules r₂.engine.document.rules := by
  have hb : (b.step e).Reached := .step hb he
  obtain ⟨s, hs⟩ := starts_step hr
  have hstart : (b.step e).WrittenAt (b.step e) s s :=
    ⟨.refl, hs.session, hs.session, Engine.shows_iff.2 hs.sheet⟩
  obtain ⟨w₁, s₁, r₁, hcontinues₁, hw₁⟩ := h₁.written hb hstart
  have hb₁ := h₁.reached hb
  obtain ⟨w₂, s₂, r₂, hcontinues₂, hw₂⟩ := h₂.written hb₁ hw₁
  have hcache : s₁.cache.Extends s₂.cache := by
    obtain ⟨s', hs', hadv⟩ := (h₂.carries hb₁).session s₁ hw₁.session
    obtain rfl := Option.some.inj (hs'.symm.trans hw₂.session)
    exact (hadv.extends (hb₁.sound.session hw₁.session)).cache
  have hrules : Rule.Embeds r₁.engine.document.rules r₂.engine.document.rules := by
    have hreached := hcontinues₁.reached hb
    have hsound := hreached.sound.session hw₁.writer
    obtain ⟨r', hr', hadv⟩ := (hcontinues₂.carries hreached).session r₁ hw₁.writer
    obtain rfl := Option.some.inj (hr'.symm.trans hw₂.writer)
    have hextends := hadv.extends hsound
    exact hextends.document.rules hsound.document hextends.sound.document
  exact ⟨w₁, w₂, s₁, s₂, r₁, r₂, hcontinues₁, hcontinues₂, hw₁, hw₂, hcache, hrules⟩

/-- The build of the margins before there is any page. -/
def marginStart : Build := step ⟨forPages, FileTree.empty, [], [], ∅⟩ (.compile (steady Engine.margins))

theorem monotone_margins : ∃ w₁ w₂ s₁ s₂ r₁ r₂, marginStart.Continues w₁ ∧ w₁.Continues w₂ ∧
    marginStart.WrittenAt w₁ s₁ r₁ ∧ marginBuild.WrittenAt w₂ s₂ r₂ ∧ s₁.cache.Extends s₂.cache ∧
    Rule.Embeds r₁.engine.document.rules r₂.engine.document.rules := by
  have hrenews : Renews ⟨forPages, FileTree.empty, [], [], ∅⟩ (.compile (steady Engine.margins)) :=
    ⟨_, congrArg (·.2) (compile_forPages sheet_margins)⟩
  have hedited : marginStart.Continues (pageBuild Engine.margins "m:sm") :=
    .step .refl (e := .edit _) trivial id
  have hreported : ¬ (pageBuild Engine.margins "m:sm").Renews (.changed "/a.vue") := by
    obtain ⟨a, report, hreport, -⟩ := marginBuild_eq
    intro hcold
    rw [Renews, hreport] at hcold
    cases hcold
  exact Continues.monotone reached_forPages (e := .compile (steady Engine.margins)) genuine_margins
    hrenews .refl (.step hedited (e := .changed "/a.vue") trivial hreported)

end Build

end AtomicCss
