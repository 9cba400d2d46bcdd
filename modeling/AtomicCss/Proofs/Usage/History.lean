import AtomicCss.Proofs.Usage.Records
import Mathlib

/-! # Scanners in use

While a scanner is in use, files change, and its records may be of files as they were before. They
never show: a scan lists the tokens of the content that is there now, as the scan of a new scanner
does. Records only save readings. -/

namespace AtomicCss.Usage

variable {t : FileTree} {trees past : List FileTree} {paths : List String} {root path : String}
  {patterns : List String}

/-- What a file that can be read is listed with. -/
def listed? (t : FileTree) (path : String) : Option (String × List String) :=
  (t.read path).toOption.map fun content => (path, Scanner.contentTokens content)

/-- What is reported of a file that cannot be read. -/
def unread? (t : FileTree) (path : String) : Option ScanWarning :=
  match t.read path with
  | .ok _ => none
  | .error cause => some (.unreadable path cause)

/-- A file is listed with the tokens of its content. -/
theorem listed?_eq_some {file : String × List String} (h : listed? t path = some file) :
    ∃ content, t.read file.1 = .ok content ∧ file.2 = Scanner.contentTokens content := by
  obtain ⟨content, hread, rfl⟩ := Option.map_eq_some_iff.1 h
  exact ⟨content, toOption_eq_some_iff.1 hread, rfl⟩

namespace Scanner

variable {s s' : Scanner} {force : Bool} {found : ScanResult}
  {warnings : List ScanWarning}

/-! ## One file -/

/-- What is reported of a file that was skipped. -/
def Outcome.warning? : Outcome → Option ScanWarning
  | skipped w => some w
  | _ => none

/-- Whatever the records are, a file is listed with the tokens that it has now, or it is reported as one
that cannot be read. -/
theorem Honest.outcome (h : s.Honest trees) (hf : s.Trusts t) {l : Location} (hl : t.Walkable l) :
    ((s.scanFile t force l.path).record?.map fun r => (l.path, r.tokens)) = listed? t l.path ∧
      (s.scanFile t force l.path).warning? = unread? t l.path := by
  rw [listed?, unread?]
  cases hread : t.read l.path with
  | error cause =>
    rw [hf.scanFile_unread hl hread]
    exact ⟨rfl, rfl⟩
  | ok content =>
    obtain ⟨written, hat⟩ := hl.at?_of_read hread
    obtain ⟨r, hr, htokens⟩ := h.tokens_scanFile hl hat force (.inr hf)
    constructor
    · rw [hr, Option.map_some, htokens]
      rfl
    · -- only what was skipped is reported, and it has no record
      cases ho : s.scanFile t force l.path with
      | skipped w =>
        rw [ho] at hr
        cases hr
      | reused r => rfl
      | refreshed r => rfl
      | extracted r => rfl

/-! ## A whole scan -/

/-- What a report says of the outcomes that were taken into it. -/
theorem report_foldl_settle (outcomes : List (String × Outcome)) (records : List UsageRecord)
    (result : ScanResult) :
    let settled := (outcomes.foldl (fun acc o => settle acc o.1 o.2) (records, result)).2
    settled.report.warnings = result.report.warnings ++ outcomes.filterMap (·.2.warning?) ∧
      settled.report.filesScanned + settled.report.filesReused + result.files.length =
        result.report.filesScanned + result.report.filesReused + settled.files.length := by
  induction outcomes generalizing records result with
  | nil => exact ⟨(List.append_nil _).symm, rfl⟩
  | cons o outcomes ih =>
    obtain ⟨p, o⟩ := o
    rw [List.foldl_cons, List.filterMap_cons]
    cases o with
    | skipped w => exact ⟨(ih _ _).1.trans (List.append_assoc ..), (ih _ _).2⟩
    | reused r =>
      refine ⟨(ih _ _).1, ?_⟩
      have := (ih records (settle (records, result) p (.reused r)).2).2
      simp only [settle, List.length_append, List.length_singleton] at this ⊢
      omega
    | refreshed r =>
      refine ⟨(ih _ _).1, ?_⟩
      have := (ih (keep records r) (settle (records, result) p (.refreshed r)).2).2
      simp only [settle, List.length_append, List.length_singleton] at this ⊢
      omega
    | extracted r =>
      refine ⟨(ih _ _).1, ?_⟩
      have := (ih (keep records r) (settle (records, result) p (.extracted r)).2).2
      simp only [settle, List.length_append, List.length_singleton] at this ⊢
      omega

theorem report_told (paths : List String) (force : Bool) :
    (s.told t paths force).report.warnings =
        paths.filterMap (fun p => (s.scanFile t force p).warning?) ∧
      (s.told t paths force).report.filesScanned + (s.told t paths force).report.filesReused =
        (s.told t paths force).files.length := by
  have hsettled := report_foldl_settle (paths.map fun p => (p, s.scanFile t force p)) s.records
    ⟨[], ⟨0, 0, 0, []⟩⟩
  constructor
  · refine hsettled.1.trans ?_
    rw [List.nil_append, List.filterMap_map]
    rfl
  · exact hsettled.2.trans (Nat.zero_add _)

/-- A scan that lists what the files hold, and reports the rest. -/
structure Lists (t : FileTree) (paths : List String) (warnings : List ScanWarning)
    (found : ScanResult) : Prop where
  files : found.files = paths.filterMap (listed? t)
  warnings : found.report.warnings = warnings ++ paths.filterMap (unread? t)
  tokens : found.report.tokens = (distinctTokens found.files).length
  counts : found.report.filesScanned + found.report.filesReused = found.files.length

/-- **A scan lists what the files hold**, whatever its records are. -/
theorem Honest.lists (h : s.Honest trees) (hp : t.Proper) (hf : s.Trusts t)
    (hr : (s.scan t).2 = .ok found) : Lists t (s.content t).1 (s.content t).2 found := by
  obtain ⟨-, hfiles, hreport⟩ := scan_ok hr
  obtain ⟨hwarnings, hcounts⟩ := s.report_told (t := t) (s.content t).1 false
  have houtcome : ∀ p ∈ (s.content t).1,
      ((s.scanFile t false p).record?.map fun r => (p, r.tokens)) = listed? t p ∧
        (s.scanFile t false p).warning? = unread? t p := by
    intro p hmem
    obtain ⟨l, hl, -, rfl⟩ := (mem_content hp).1 p hmem
    exact h.outcome hf hl
  refine ⟨?files, ?warnings, ?tokens, ?counts⟩
  case files =>
    rw [hfiles, files_told]
    exact List.filterMap_congr fun p hmem => (houtcome p hmem).1
  case warnings =>
    rw [hreport, hwarnings]
    exact congrArg _ (List.filterMap_congr fun p hmem => (houtcome p hmem).2)
  case tokens =>
    rw [hreport, hfiles]
    rfl
  case counts =>
    rw [hreport, hfiles]
    exact hcounts

/-! ## Scanners with a history -/

/-- A scanner as it was made, without records. -/
def blank (s : Scanner) : Scanner := s.invalidate.resetCancel

theorem blank_scanFiles : (s.scanFiles t paths force).1.blank = s.blank := by
  rw [scanFiles_eq]
  split <;> rfl

theorem blank_after (call : Call) : (s.after t call).blank = s.blank := by
  cases call with
  | scan =>
    show (s.scan t).1.blank = s.blank
    rw [scan_eq]
    split <;> rfl
  | scanPaths paths => exact blank_scanFiles
  | forget path => rfl
  | invalidate => rfl
  | resetCancel => rfl

/-- A scanner in use: the files as they are, as they were before each edit since it was made, and
what it has become. -/
inductive History (root : String) (patterns : List String) :
    FileTree → List FileTree → Scanner → Prop
  | new {t : FileTree} {s : Scanner} (files : t.Reached)
      (made : Scanner.new t root patterns = .ok s) : History root patterns t [] s
  | edit {t : FileTree} {past : List FileTree} {s : Scanner} (h : History root patterns t past s)
      (edit : FileEdit) : History root patterns (t.edit edit) (t :: past) s
  | call {t : FileTree} {past : List FileTree} {s : Scanner} (h : History root patterns t past s)
      (call : Call) : History root patterns t past (s.after t call)
  | cancel {t : FileTree} {past : List FileTree} {s : Scanner}
      (h : History root patterns t past s) (looks : Nat) :
      History root patterns t past (s.cancelAfter looks)

namespace History

theorem reached (h : History root patterns t past s) : t.Reached := by
  induction h with
  | new files _ => exact files
  | edit _ e ih => exact ih.edit e
  | call _ _ ih => exact ih
  | cancel _ _ ih => exact ih

theorem honest (h : History root patterns t past s) : s.Honest (t :: past) := by
  induction h with
  | new _ made =>
    intro r hr
    rw [records_new made] at hr
    cases hr
  | edit _ _ ih => exact ih.mono (List.subset_cons_self ..)
  | call _ call ih => exact ih.ran List.mem_cons_self (ran_after call)
  | cancel _ _ ih => exact ih

/-- A new scanner for the same root and patterns is the one that this scanner was. -/
theorem new_eq (h : History root patterns t past s) {t' : FileTree}
    (hw : t'.workingDirectory = t.workingDirectory) :
    Scanner.new t' root patterns = ((t'.locate root).mapError (.io root)).map fun _ => s.blank := by
  induction h with
  | new _ made =>
    obtain ⟨location, globs, hroot, hglobs, rfl⟩ := new_eq_ok made
    cases hnow : t'.locate root with
    | error cause =>
      simp only [Scanner.new, bind, Except.bind, hnow]
      rfl
    | ok location' =>
      obtain rfl := FileTree.locate_unique hw hroot hnow
      simp only [Scanner.new, bind, Except.bind, hnow, hglobs]
      rfl
  | edit _ e ih => exact ih (hw.trans (FileTree.workingDirectory_edit _ e))
  | call _ call ih => rw [blank_after, ih hw]
  | cancel _ _ ih => exact ih hw

/-- **Records never show.** A new scanner for the same root and patterns, if the root is still there,
is this one without its records; and unless it hears a request to stop, this one finds the same files
in the same order, with the tokens of their content, and reports the same warnings. -/
theorem scan_eq_blank (h : History root patterns t past s) (hf : Faithful (t :: past)) :
    Scanner.new t root patterns = ((t.locate root).mapError (.io root)).map (fun _ => s.blank) ∧
    ∃ found expected,
      (s.scan t).2 = (if s.stopsWithin (s.looks t) then .error .cancelled else .ok found) ∧
      (s.blank.scan t).2 = .ok expected ∧
      found.files = expected.files ∧
      found.report.warnings = expected.report.warnings ∧
      found.report.tokens = expected.report.tokens ∧
      found.report.filesScanned + found.report.filesReused =
        expected.report.filesScanned + expected.report.filesReused ∧
      ∀ file ∈ found.files, ∃ content, t.read file.1 = .ok content ∧
        file.2 = contentTokens content := by
  refine ⟨h.new_eq rfl, ?_⟩
  have hp := h.reached.proper
  have htrusts := h.honest.trusts List.mem_cons_self hp hf
  have hnone : s.blank.Honest (t :: past) := nofun
  obtain ⟨expected, hexpected⟩ := scan_of_stop_eq_none (s := s.blank) (t := t) rfl
  have he := hnone.lists hp nofun hexpected
  obtain ⟨found, hfound, hl⟩ : ∃ found,
      (s.scan t).2 = (if s.stopsWithin (s.looks t) then .error .cancelled else .ok found) ∧
        Lists t (s.content t).1 (s.content t).2 found := by
    rw [scan_eq]
    cases hstops : s.stopsWithin (s.looks t) with
    | true => exact ⟨expected, rfl, he⟩
    | false =>
      refine ⟨_, rfl, h.honest.lists hp htrusts ?_⟩
      rw [scan_eq, hstops]
      rfl
  have hfiles : found.files = expected.files := hl.files.trans he.files.symm
  refine ⟨found, expected, hfound, hexpected, hfiles, hl.warnings.trans he.warnings.symm,
    ?tokens, ?counts, ?content⟩
  case tokens => rw [hl.tokens, he.tokens, hfiles]
  case counts => rw [hl.counts, he.counts, hfiles]
  case content =>
    intro file hmem
    rw [hl.files] at hmem
    obtain ⟨p, -, hp⟩ := List.mem_filterMap.1 hmem
    exact listed?_eq_some hp

/-- A note, and what is written over it: as many bytes, later. -/
def noted : FileTree := FileTree.empty.edit (.write "/a.vue" "card".toUTF8 none)

def renoted : FileTree := noted.edit (.write "/a.vue" "chip".toUTF8 none)

theorem entries_noted : noted.entries = [(["a.vue"], .file "card".toUTF8 (.tick 0))] := rfl

theorem entries_renoted : renoted.entries = [(["a.vue"], .file "chip".toUTF8 (.tick 1))] := rfl

theorem faithful_noted : Faithful [renoted, noted] := by
  apply faithful_of_entries (noted.entries ++ renoted.entries)
  · simp
  · -- files with different contents were written at different times
    simp [entries_noted, entries_renoted, FileEntry.metadata?]

theorem scan_eq_blank_renoted : ∃ s found, History "/" ["*.vue"] renoted [noted] s ∧
    Faithful [renoted, noted] ∧ s.records.map (·.tokens) = [["card"]] ∧
    (s.scan renoted).2 = .ok found ∧ found.files = [("/a.vue", ["chip"])] ∧
    (s.blank.scan renoted).2.map (·.files) = .ok found.files := by
  obtain ⟨s, hs⟩ : ∃ s, Scanner.new noted "/" ["*.vue"] = .ok s := ⟨_, rfl⟩
  have hreached : noted.Reached := ⟨[], [.write "/a.vue" "card".toUTF8 none], rfl⟩
  have hhistory : History "/" ["*.vue"] renoted [noted] (s.scan noted).1 :=
    .edit (.call (.new hreached hs) .scan) (.write "/a.vue" "chip".toUTF8 none)
  obtain ⟨-, found, expected, hfound, hexpected, hfiles, -⟩ := hhistory.scan_eq_blank faithful_noted
  have hscans : ((Scanner.new noted "/" ["*.vue"]).map fun s =>
      ((s.scan noted).1.records.map (·.tokens),
        ((s.scan noted).1.scan renoted).2.toOption.map (·.files))).toOption =
      some ([["card"]], some [("/a.vue", ["chip"])]) := by
    cbv
  rw [hs] at hscans
  obtain ⟨hrecords, hlisted⟩ := Prod.mk.inj (Option.some.inj hscans)
  have hstop : (s.scan noted).1.stop = none := by
    obtain ⟨location, globs, -, -, rfl⟩ := new_eq_ok hs
    exact (ran_after .scan).running rfl
  rw [stopsWithin_of_stop_eq_none hstop, if_neg Bool.false_ne_true] at hfound
  rw [hfound] at hlisted
  refine ⟨_, found, hhistory, faithful_noted, hrecords, hfound, Option.some.inj hlisted, ?_⟩
  rw [hfiles, hexpected]
  rfl

end History

end Scanner

end AtomicCss.Usage
