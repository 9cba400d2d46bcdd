import AtomicCss.Proofs.Build.Run

/-! # Between two cold builds

A session starts with a cold build that succeeds. Until the next one, it goes on by commits alone:
whatever else happens, and whatever fails, neither the config nor the files that are looked for
change (`Build.Continues.carries`). -/

namespace AtomicCss

/-! ## Sessions -/

/-- A session after a commit, with the sheet of its engine or the one from before. -/
inductive BuildSession.Step : BuildSession → BuildSession → Prop
  | commit {s : BuildSession} {tokens : List String} {k : Commit} {css : String}
      (commit : (Commit.start s.engine s.cache).tokens tokens = .ok k)
      (served : css = s.css ∨ k.engine.sheet .standard = .ok css) :
      Step s { s with engine := k.engine, cache := k.cache, css }

/-- A session after some commits. -/
def BuildSession.Advances : BuildSession → BuildSession → Prop :=
  Relation.ReflTransGen BuildSession.Step

theorem BuildSession.Advances.configContent {s s' : BuildSession} (h : s.Advances s') :
    s'.configContent = s.configContent := by
  induction h with
  | refl => rfl
  | tail _ hstep ih =>
    cases hstep
    exact ih

namespace Adapter

variable {a a' a'' : Adapter} {t : FileTree} {path : String} {s : BuildSession}
  {R : BuildSession → BuildSession → Prop}

/-- The adapter looks for the same files and has the same config, and a session stays there. -/
structure Carries (R : BuildSession → BuildSession → Prop) (a a' : Adapter) : Prop where
  config : a'.config = a.config
  entry : a'.entry.map (·.1) = a.entry.map (·.1)
  files : a.scanner.SameFiles a'.scanner
  session : ∀ s, a.session = some s → ∃ s', a'.session = some s' ∧ R s s'

namespace Carries

theorem mono {R' : BuildSession → BuildSession → Prop} (h : a.Carries R a')
    (hR : ∀ s s', R s s' → R' s s') : a.Carries R' a' where
  config := h.config
  entry := h.entry
  files := h.files
  session s hs := by
    obtain ⟨s', hs', hr⟩ := h.session s hs
    exact ⟨s', hs', hR s s' hr⟩

theorem configPaths (h : a.Carries R a') : a'.configPaths = a.configPaths :=
  configPaths_congr h.config h.entry

theorem refl (a : Adapter) : a.Carries BuildSession.Advances a :=
  ⟨rfl, rfl, ⟨rfl, rfl⟩, fun s hs => ⟨s, hs, .refl⟩⟩

theorem trans (h : a.Carries BuildSession.Advances a') (h' : a'.Carries BuildSession.Advances a'') :
    a.Carries BuildSession.Advances a'' where
  config := h'.config.trans h.config
  entry := h'.entry.trans h.entry
  files := h.files.trans h'.files
  session s hs := by
    obtain ⟨s', hs', hadv⟩ := h.session s hs
    obtain ⟨s'', hs'', hadv'⟩ := h'.session s' hs'
    exact ⟨s'', hs'', hadv.trans hadv'⟩

theorem of_session_eq (hset : a.SameSetup t a') (hentry : a'.entry.map (·.1) = a.entry.map (·.1))
    (hsession : a'.session = a.session) : a.Carries (Relation.ReflGen BuildSession.Step) a' where
  config := hset.config
  entry := hentry
  files := hset.scanner.sameFiles
  session s hs := ⟨s, hsession.trans hs, .refl⟩

theorem of_commit {r : Usage.ScanResult} {k : Commit} {css : String} (hc : a.Commits t path s r k)
    (hserved : css = s.css ∨ k.engine.sheet .standard = .ok css) :
    a.Carries (Relation.ReflGen BuildSession.Step) (a.committed t path s k css) where
  config := rfl
  entry := rfl
  files := Usage.Scanner.sameFiles_after (.scanPaths _)
  session s' hs' := by
    obtain rfl := Option.some.inj (hc.session.symm.trans hs')
    exact ⟨_, rfl, .single (.commit hc.commit hserved)⟩

end Carries

theorem Changed.carries {result : Except BuildError FileChange} (h : a.Changed t path a' result)
    (ha : a.Sound) (hr : result ≠ .ok .coldRebuild) :
    a.Carries (Relation.ReflGen BuildSession.Step) a' := by
  cases h with
  | failed hset hsession hentry => exact .of_session_eq hset hentry hsession
  | passed _ _ hk => exact .of_session_eq hk.setup (by rw [hk.entry]) hk.session
  | cold _ => exact absurd rfl hr
  | refused _ hs hk =>
    -- a sound engine refuses no commit
    have hstart := ha.session hs
    obtain ⟨k', hk', -⟩ := hstart.tokens_ok (k := .start _ _) _
    rw [hk] at hk'
    cases hk'
  | unchanged hc _ =>
    obtain ⟨hconfig, hentry, hfiles, hsession⟩ := Carries.of_commit hc (.inl rfl)
    exact ⟨hconfig, hentry, hfiles, hsession⟩
  | written hc _ hsheet =>
    obtain ⟨hconfig, hentry, hfiles, hsession⟩ := Carries.of_commit hc (.inr hsheet)
    exact ⟨hconfig, hentry, hfiles, hsession⟩
  | stranded hc _ _ => exact .of_commit hc (.inl rfl)

/-- The session of an adapter starts: its sheet is that of its engine, and of the files of the
config it remembers the first. -/
structure Starts (a : Adapter) (t : FileTree) (s : BuildSession) : Prop where
  session : a.session = some s
  sheet : s.engine.sheet .standard = .ok s.css
  configContent : s.configContent = a.configPaths.head?.bind (contentAt? t)

theorem ColdBuilt.starts {entry : ConfigEntry} {n m : Nat} {a₁ : Adapter}
    (h : a.ColdBuilt t entry n a₁ s) (hset : a.SameSetup t a₁) :
    Starts { a₁ with entry := some (entry, m), session := some s } t s where
  session := rfl
  sheet := h.sheet
  configContent := by
    show s.configContent = (a₁.config.configPath.toList ++ entry.source.toList).head?.bind _
    rw [h.configContent, hset.config]
    cases a.config.configPath with
    | none => cases entry.source <;> rfl
    | some path => rfl

end Adapter

/-! ## Builds -/

namespace Build

variable {b b' b'' : Build} {e : BuildEvent}

/-- The event is a cold build that succeeds. -/
def Renews (b : Build) : BuildEvent → Prop
  | .compile entry => ∃ css, (b.adapter.compile b.files entry).2 = .ok css
  | .rebuild => ∃ css, (b.adapter.rebuild b.files).2 = .ok css
  | .changed path => (b.adapter.fileChanged b.files path).2 = .ok .coldRebuild
  | _ => False

/-- The second build is the first one after some events, none of them a cold build that succeeds. -/
inductive Continues (b : Build) : Build → Prop
  | refl : Continues b b
  | step {b' : Build} {e : BuildEvent} (h : Continues b b') (he : e.Genuine) (hkeep : ¬ b'.Renews e) :
      Continues b (b'.step e)

theorem Continues.reached (h : b.Continues b') (hb : b.Reached) : b'.Reached := by
  induction h with
  | refl => exact hb
  | step _ he _ ih => exact .step ih he

theorem adapter_compile (b : Build) (entry : ConfigEntry) :
    (b.step (.compile entry)).adapter = (b.adapter.compile b.files entry).1 := adapter_cold b _ _

theorem adapter_rebuild (b : Build) : (b.step .rebuild).adapter = (b.adapter.rebuild b.files).1 :=
  adapter_cold b _ _

theorem starts_step (h : b.Renews e) : ∃ s, (b.step e).adapter.Starts b.files s := by
  have hrebuild {a : Adapter} {css : String} (hr : b.adapter.rebuild b.files = (a, .ok css)) :
      ∃ s, a.Starts b.files s := by
    obtain ⟨entry, n, a₁, s, -, hc, hk, -, rfl⟩ := Adapter.rebuild_ok hr
    exact ⟨s, hc.starts hk.setup⟩
  cases e with
  | compile entry =>
    obtain ⟨css, hcss⟩ := h
    rw [adapter_compile]
    have hpair : b.adapter.compile b.files entry = ((b.adapter.compile b.files entry).1, .ok css) :=
      Prod.ext rfl hcss
    obtain ⟨a₁, s, hc, hk, -, ha⟩ := Adapter.compile_ok hpair
    rw [ha]
    exact ⟨s, hc.starts hk.setup⟩
  | rebuild =>
    obtain ⟨css, hcss⟩ := h
    rw [adapter_rebuild]
    exact hrebuild (Prod.ext rfl hcss)
  | changed path =>
    have hchanged := Adapter.changed_fileChanged b.adapter b.files path
    rw [show (b.adapter.fileChanged b.files path).2 = .ok .coldRebuild from h] at hchanged
    rw [adapter_changed]
    generalize (b.adapter.fileChanged b.files path).1 = a at hchanged
    cases hchanged with
    | passed hnone _ _ => rcases hnone with h | h <;> cases h
    | cold hr => exact hrebuild hr
  | edit e => cases h
  | scanner call => cases h
  | cancel looks => cases h

/-- **Unless it renews the session, an event commits something into it or leaves it alone.** -/
theorem carries_step (hb : b.Reached) (hkeep : ¬ b.Renews e) :
    b.adapter.Carries (Relation.ReflGen BuildSession.Step) (b.step e).adapter := by
  cases e with
  | edit e => exact ⟨rfl, rfl, ⟨rfl, rfl⟩, fun s hs => ⟨s, hs, .refl⟩⟩
  | compile entry =>
    rw [adapter_compile]
    cases hc : b.adapter.compile b.files entry with
    | mk a result =>
      cases result with
      | ok css => exact absurd ⟨css, congrArg (·.2) hc⟩ hkeep
      | error cause =>
        have hk := Adapter.compile_error hc
        exact .of_session_eq hk.setup (by rw [hk.entry]) hk.session
  | rebuild =>
    rw [adapter_rebuild]
    cases hc : b.adapter.rebuild b.files with
    | mk a result =>
      cases result with
      | ok css => exact absurd ⟨css, congrArg (·.2) hc⟩ hkeep
      | error cause =>
        obtain ⟨hset, hsession, hentry⟩ := Adapter.rebuild_error hc
        exact .of_session_eq hset hentry hsession
  | changed path =>
    rw [adapter_changed]
    exact (Adapter.changed_fileChanged _ _ path).carries hb.sound hkeep
  | scanner call => exact ⟨rfl, rfl, Usage.Scanner.sameFiles_after call, fun s hs => ⟨s, hs, .refl⟩⟩
  | cancel looks => exact ⟨rfl, rfl, ⟨rfl, rfl⟩, fun s hs => ⟨s, hs, .refl⟩⟩

/-- **Between two cold builds, the session advances and everything else stays.** -/
theorem Continues.carries (h : b.Continues b') (hb : b.Reached) :
    b.adapter.Carries BuildSession.Advances b'.adapter := by
  induction h with
  | refl => exact .refl _
  | step h _ hkeep ih =>
    apply ih.trans
    apply (carries_step (h.reached hb) hkeep).mono
    intro s s' hr
    exact hr.to_reflTransGen

theorem Continues.trans (h : b.Continues b') (h' : b'.Continues b'') : b.Continues b'' := by
  induction h' with
  | refl => exact h
  | step _ he hkeep ih => exact .step ih he hkeep

end Build

end AtomicCss
