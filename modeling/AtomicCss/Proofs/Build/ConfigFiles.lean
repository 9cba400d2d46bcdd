import AtomicCss.Proofs.Build.Renewal
import Mathlib

/-! # Reports of the config's files

A config may have two files, and a session remembers the content of the first, looked up as its path
is written: from the working directory, if it is relative. A report is then answered as if that were
the content of the reported file, whose path is taken from the root of the scanner. So it is answered
rightly if the reported file is the first one and both directories lead its path to the same file; a
change of the second file may be passed over, and without any change it may lead to a cold build. -/

namespace AtomicCss

namespace Adapter

variable {a : Adapter} {t : FileTree} {path : String} {content : ByteArray}

/-- The content of the file that a path means to an adapter. -/
def fileContent? (a : Adapter) (t : FileTree) (path : String) : Option ByteArray :=
  contentAt? t (a.scanner.resolvePath t path)

/-- The content that a new session remembers. -/
def remembered? (a : Adapter) (t : FileTree) : Option ByteArray :=
  a.configPaths.head?.bind (contentAt? t)

/-- The answer to a report of a file that is as it was, or to that of one that has changed. -/
def answer (a : Adapter) (t : FileTree) (same : Prop) [Decidable same] :
    Adapter × Except BuildError FileChange :=
  if same then (a, .ok .ignored)
  else ((a.rebuild t).1, (a.rebuild t).2.map fun _ => .coldRebuild)

theorem answer_eq_iff {p q : Prop} [Decidable p] [Decidable q] :
    a.answer t p = a.answer t q ↔ (p ↔ q) := by
  -- only one of the answers is a cold build
  have hne : ((a.rebuild t).1, (a.rebuild t).2.map fun _ => FileChange.coldRebuild) ≠
      (a, .ok .ignored) := by
    intro h
    cases hr : (a.rebuild t).2 with
    | error cause => simp [hr, Except.map] at h
    | ok css => simp [hr, Except.map] at h
  by_cases hp : p
  · by_cases hq : q
    · simp [answer, hp, hq]
    · simp [answer, hp, hq, hne.symm]
  · by_cases hq : q
    · simp [answer, hp, hq, hne]
    · simp [answer, hp, hq]

/-- A path that leads to a file as it is written means that file, if it is read from the root of the
scanner. -/
theorem fileContent?_of_contentAt? (h : contentAt? t path = some content)
    (hroot : Path.isAbsolute path = true ∨ t.workingDirectory = a.scanner.root) :
    a.fileContent? t path = some content := by
  obtain ⟨written, hlookup⟩ := FileTree.lookup_of_read (toOption_eq_some_iff.1 h)
  obtain ⟨l, hl, hat⟩ := FileTree.lookup_eq_ok hlookup
  have hwalk := FileTree.walkable_of_locate hl
  have hjoin : Path.join a.scanner.rootPath path = t.absolute path := by
    rcases hroot with habsolute | hroot
    · rw [FileTree.absolute_eq habsolute, Path.join, if_pos habsolute]
    · rw [FileTree.absolute, hroot]
      rfl
  have hresolve : a.scanner.resolvePath t path = l.path := by
    simp only [Usage.Scanner.resolvePath, hjoin,
      FileTree.locate_absolute (FileTree.locate_eq_ok hl).1, hl]
  rw [fileContent?, hresolve, contentAt?, FileTree.read_of_lookup (hwalk.lookup_path hat)]
  rfl

/-- A report of a file of the config compares it with what the session remembers. -/
theorem fileChanged_of_mem_configPaths {s : BuildSession} (hs : a.session = some s)
    (hpath : path ∈ a.configPaths) (hnow : a.fileContent? t path = some content) :
    a.fileChanged t path = a.answer t (s.configContent = some content) := by
  have hconfig : a.isConfigPath t (a.scanner.resolvePath t path) = true := by
    rw [isConfigPath, List.any_eq_true]
    exact ⟨path, hpath, by simp⟩
  have hsame : ((contentAt? t (a.scanner.resolvePath t path)).any fun c =>
      s.configContent.any (sameContent c)) = decide (s.configContent = some content) := by
    rw [show contentAt? t _ = _ from hnow, Option.any_some]
    cases hc : s.configContent with
    | none => simp
    | some c =>
      rw [Option.any_some, Bool.eq_iff_iff, sameContent_iff, decide_eq_true_eq, Option.some_inj,
        eq_comm]
  unfold fileChanged
  simp only [hs, hconfig, if_true]
  unfold configChanged answer
  simp only [hsame, decide_eq_true_eq]

end Adapter

namespace Build

variable {b b' : Build} {e : BuildEvent} {path : String} {was now : ByteArray}

/-- The main result. The first conclusion says how the report of a file of the config is answered in
every session, the second when that is right. The third is the case in which it is always right. In
the last one, that of a path which leads nowhere from the working directory, it is right only for a
file that has changed. -/
theorem fileChanged_configPath (hb : b.Reached) (he : e.Genuine) (hr : b.Renews e)
    (hc : (b.step e).Continues b') (hpath : path ∈ b'.adapter.configPaths)
    (hwas : b'.adapter.fileContent? b.files path = some was)
    (hnow : b'.adapter.fileContent? b'.files path = some now) :
    b'.adapter.fileChanged b'.files path =
      b'.adapter.answer b'.files (b'.adapter.remembered? b.files = some now) ∧
    (b'.adapter.fileChanged b'.files path = b'.adapter.answer b'.files (was = now) ↔
      (b'.adapter.remembered? b.files = some now ↔ was = now)) ∧
    (b'.adapter.configPaths.head? = some path → (Adapter.contentAt? b.files path).isSome →
      (Path.isAbsolute path = true ∨ b.files.workingDirectory = b'.adapter.scanner.root) →
      b'.adapter.fileChanged b'.files path = b'.adapter.answer b'.files (was = now)) ∧
    (∀ first, b'.adapter.configPaths.head? = some first → Adapter.contentAt? b.files first = none →
      b'.adapter.fileChanged b'.files path = b'.adapter.answer b'.files False) := by
  have hadv := hc.carries (.step hb he)
  obtain ⟨s, hstarts⟩ := starts_step hr
  obtain ⟨s', hs', hs⟩ := hadv.session s hstarts.session
  have hremembered : s'.configContent = b'.adapter.remembered? b.files := by
    rw [hs.configContent, hstarts.configContent, Adapter.remembered?, hadv.configPaths]
  have hanswer : b'.adapter.fileChanged b'.files path =
      b'.adapter.answer b'.files (b'.adapter.remembered? b.files = some now) := by
    rw [Adapter.fileChanged_of_mem_configPaths hs' hpath hnow]
    exact Adapter.answer_eq_iff.2 (by rw [hremembered])
  refine ⟨hanswer, ?exact, ?first, ?astray⟩
  case exact =>
    rw [hanswer]
    exact Adapter.answer_eq_iff
  case first =>
    intro hhead hsome hroot
    obtain ⟨content, hcontent⟩ := Option.isSome_iff_exists.1 hsome
    have hfile := Adapter.fileContent?_of_contentAt? hcontent hroot
    obtain rfl := Option.some.inj (hwas.symm.trans hfile)
    have hfirst : b'.adapter.remembered? b.files = some was := by
      rw [Adapter.remembered?, hhead]
      exact hcontent
    rw [hanswer]
    exact Adapter.answer_eq_iff.2 (by rw [hfirst, Option.some_inj])
  case astray =>
    intro first hhead hastray
    have hnone : b'.adapter.remembered? b.files = none := by
      rw [Adapter.remembered?, hhead]
      exact hastray
    rw [hanswer]
    exact Adapter.answer_eq_iff.2 (by simp [hnone])

/-! ### A change that is passed over -/

/-- A file that the settings name, and the source of a config. -/
def twoFiles (settings source : String) (n : Nat) : FileTree :=
  ⟨[(["a.toml"], .file settings.toUTF8 (.tick 0)), (["b.rs"], .file source.toUTF8 (.tick n))],
    n + 1, []⟩

theorem contentAt?_twoFiles (settings source : String) (n : Nat) :
    Adapter.contentAt? (twoFiles settings source n) "/a.toml" = some settings.toUTF8 ∧
      Adapter.contentAt? (twoFiles settings source n) "/b.rs" = some source.toUTF8 := by
  have hsettings : (twoFiles settings source n).locate "/a.toml" = .ok ["a.toml"] := by cbv
  have hsource : (twoFiles settings source n).locate "/b.rs" = .ok ["b.rs"] := by cbv
  constructor
  · simp only [Adapter.contentAt?, FileTree.read, FileTree.lookup, hsettings, bind, Except.bind]
    rfl
  · simp only [Adapter.contentAt?, FileTree.read, FileTree.lookup, hsource, bind, Except.bind]
    rfl

/-- A new adapter for the two files. -/
def forTwoFiles : Build where
  adapter := ⟨⟨[], "/", none, none, some "/a.toml"⟩, ⟨[], [], [], [], none⟩, none, none, none⟩
  files := twoFiles "x" "y" 1
  past := []
  found := []
  unreported := ∅

def twoFilesEntry : ConfigEntry := ⟨some "/b.rs", fun _ mode => .ok (.new "app" mode)⟩

/-- The build in which the second file comes to hold what the first one holds. -/
def staleBuild : Build :=
  (forTwoFiles.step (.compile twoFilesEntry)).step (.edit (.write "/b.rs" "x".toUTF8 none))

theorem fileChanged_stale : forTwoFiles.Reached ∧ forTwoFiles.Renews (.compile twoFilesEntry) ∧
    staleBuild.adapter.fileContent? forTwoFiles.files "/b.rs" = some "y".toUTF8 ∧
    staleBuild.adapter.fileContent? staleBuild.files "/b.rs" = some "x".toUTF8 ∧
    staleBuild.adapter.fileChanged staleBuild.files "/b.rs" = (staleBuild.adapter, .ok .ignored) := by
  have hreached : forTwoFiles.Reached := .new
    ⟨[], [.write "/a.toml" "x".toUTF8 none, .write "/b.rs" "y".toUTF8 none], rfl⟩
    (show Adapter.new _ ⟨[], "/", none, none, some "/a.toml"⟩ = _ from rfl)
  have hgenuine : (BuildEvent.compile twoFilesEntry).Genuine := by
    intro n mode engine h
    exact ⟨"app", mode, [], Except.ok.inj h⟩
  have hrenews : forTwoFiles.Renews (.compile twoFilesEntry) := ⟨"", rfl⟩
  have hcontinues : (forTwoFiles.step (.compile twoFilesEntry)).Continues staleBuild :=
    .step .refl (e := .edit _) trivial id
  have hpaths : staleBuild.adapter.configPaths = ["/a.toml", "/b.rs"] := rfl
  have hpath : "/b.rs" ∈ staleBuild.adapter.configPaths := by
    rw [hpaths]
    simp
  have hwas : staleBuild.adapter.fileContent? forTwoFiles.files "/b.rs" = some "y".toUTF8 :=
    Adapter.fileContent?_of_contentAt? (contentAt?_twoFiles "x" "y" 1).2 (.inl (by decide))
  have hfiles : staleBuild.files = twoFiles "x" "x" 2 := rfl
  have hnow : staleBuild.adapter.fileContent? staleBuild.files "/b.rs" = some "x".toUTF8 := by
    rw [hfiles]
    exact Adapter.fileContent?_of_contentAt? (contentAt?_twoFiles "x" "x" 2).2 (.inl (by decide))
  have hremembered : staleBuild.adapter.remembered? forTwoFiles.files = some "x".toUTF8 := by
    rw [Adapter.remembered?, hpaths]
    exact (contentAt?_twoFiles "x" "y" 1).1
  refine ⟨hreached, hrenews, hwas, hnow, ?_⟩
  rw [(fileChanged_configPath hreached hgenuine hrenews hcontinues hpath hwas hnow).1]
  exact if_pos hremembered

end Build

end AtomicCss
