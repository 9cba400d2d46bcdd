import AtomicCss.Proofs.Files.Tree
import AtomicCss.Usage.Scanner
import Mathlib.Data.List.Basic
import Mathlib.Logic.Relation

/-! # Scans and records

A scan is cut short by a request to stop and leaves the records as they are, or it does what it would
do without any request (`Scanner.scan_eq`). What it finds then, and which records it leaves behind,
is said file by file. -/

namespace AtomicCss.Usage.Scanner

variable {s s' s'' : Scanner} {t : FileTree} {path p : String} {force : Bool} {r : UsageRecord}
  {result : ScanResult} {paths : List String}

/-- What a new scanner consists of. -/
theorem new_eq_ok {root : String} {patterns : List String}
    (h : Scanner.new t root patterns = .ok s) : ∃ location globs, t.locate root = .ok location ∧
      (patterns.map Text.trimmed).mapM (fun p => Glob.parse (withoutDot p)) = .ok globs ∧
      s = ⟨location, patterns.map Text.trimmed, globs, [], none⟩ := by
  simp only [Scanner.new, bind, Except.bind, pure, Except.pure] at h
  cases hroot : t.locate root with
  | error cause => simp [hroot, Except.mapError] at h
  | ok location =>
    cases hglobs : (patterns.map Text.trimmed).mapM fun p => Glob.parse (withoutDot p) with
    | error cause => simp [hroot, hglobs, Except.mapError] at h
    | ok globs =>
      simp only [hroot, hglobs, Except.mapError, Except.ok.injEq] at h
      exact ⟨location, globs, rfl, rfl, h.symm⟩

theorem records_new {root : String} {patterns : List String}
    (h : Scanner.new t root patterns = .ok s) : s.records = [] := by
  obtain ⟨location, globs, -, -, rfl⟩ := new_eq_ok h
  rfl

/-! ## Looking out for requests to stop -/

/-- Whether a request to stop is heard in the course of some looks. -/
def stopsWithin (s : Scanner) (looks : Nat) : Bool := s.stop.any (· < looks)

/-- The scanner after some looks. -/
def passed (s : Scanner) (looks : Nat) : Scanner := { s with stop := s.stop.map (· - looks) }

/-- The scanner after a request to stop was heard. -/
def stopped (s : Scanner) : Scanner := { s with stop := some 0 }

theorem pass?_eq (s : Scanner) : s.pass? = if s.stopsWithin 1 then none else some (s.passed 1) := by
  obtain ⟨root, patterns, globs, records, stop⟩ := s
  cases stop with
  | none => rfl
  | some n => cases n <;> rfl

theorem passed_zero (s : Scanner) : s.passed 0 = s := by
  obtain ⟨root, patterns, globs, records, stop⟩ := s
  cases stop <;> rfl

theorem passed_add (s : Scanner) (m n : Nat) : s.passed (m + n) = (s.passed m).passed n := by
  simp only [passed, Option.map_map, Function.comp_def, Nat.sub_sub]

theorem stopsWithin_add (s : Scanner) (m n : Nat) :
    s.stopsWithin (m + n) = (s.stopsWithin m || (s.passed m).stopsWithin n) := by
  cases h : s.stop with
  | none => simp [stopsWithin, passed, h]
  | some k =>
    have hlt : k < m + n ↔ k < m ∨ k - m < n := by omega
    simp [stopsWithin, passed, h, hlt]

theorem passed_eq_stopped {n : Nat} (h : s.stopsWithin (n + 1) = true) : s.passed n = s.stopped := by
  obtain ⟨k, hk, hlt⟩ := (Option.any_eq_true _ _).1 h
  have hle : k - n = 0 := by
    have := of_decide_eq_true hlt
    omega
  rw [passed, stopped, hk, Option.map_some, hle]

theorem eq_stopped (h : s.stopsWithin 1 = true) : s = s.stopped :=
  (passed_zero s).symm.trans (passed_eq_stopped h)

theorem stopsWithin_succ {n : Nat} (h : s.stopsWithin n = true) : s.stopsWithin (n + 1) = true := by
  rw [stopsWithin_add, h, Bool.true_or]

/-- Going through what is met takes one look for each thing. -/
theorem visit_eq (met : List (Location × FileEntry)) (s : Scanner) (found : List (Nat × Location)) :
    s.visit found met = (s.passed met.length, if s.stopsWithin met.length then .error .cancelled
      else .ok (found ++ met.filterMap s.found?)) := by
  induction met generalizing s found with
  | nil =>
    have hnone : s.stopsWithin 0 = false := by simp [stopsWithin]
    rw [visit, List.length_nil, passed_zero, hnone]
    simp
  | cons x met ih =>
    rw [visit, pass?_eq, List.length_cons, Nat.add_comm, stopsWithin_add, passed_add]
    cases h : s.stopsWithin 1 with
    | true =>
      rw [if_pos rfl, Bool.true_or, if_pos rfl, eq_stopped h]
      simp [passed, stopped]
    | false =>
      rw [if_neg Bool.false_ne_true, Bool.false_or]
      simp only [ih]
      rw [List.filterMap_cons, List.append_assoc]
      congr 3
      cases hx : s.found? x <;> rw [show (s.passed 1).found? x = _ from hx] <;> rfl

/-- What a walk finds if it comes to its end. -/
def content (s : Scanner) (t : FileTree) : List String × List ScanWarning :=
  match t.locate s.rootPath with
  | .error cause => ([], [.walk s.rootPath cause])
  | .ok _ => ((((t.walkFrom s.root).filterMap s.found?).mergeSort foundBefore).map (·.2.path), [])

/-- How often a walk looks out for a request to stop. -/
def walkLooks (s : Scanner) (t : FileTree) : Nat :=
  match t.locate s.rootPath with
  | .error _ => 1
  | .ok _ => (t.walkFrom s.root).length

theorem walk_eq (s : Scanner) (t : FileTree) : s.walk t = (s.passed (s.walkLooks t),
    if s.stopsWithin (s.walkLooks t) then .error .cancelled else .ok (s.content t)) := by
  unfold walk walkLooks content
  cases t.locate s.rootPath with
  | error cause =>
    simp only [pass?_eq]
    cases h : s.stopsWithin 1 with
    | true =>
      rw [passed_eq_stopped (stopsWithin_succ h), ← eq_stopped h]
      rfl
    | false => rfl
  | ok l =>
    simp only [visit_eq, List.nil_append]
    cases s.stopsWithin (t.walkFrom s.root).length <;> rfl

/-! ## The record of a path -/

theorem record?_eq_some (h : s.record? path = some r) :
    r ∈ s.records ∧ Path.components r.path = Path.components path :=
  ⟨List.mem_of_find?_eq_some h, by simpa using List.find?_some h⟩

theorem mem_keep {records : List UsageRecord} {x : UsageRecord} (h : x ∈ keep records r) :
    x ∈ records ∨ x = r := by
  rcases List.mem_append.1 h with h | h
  · left
    exact (List.mem_filter.1 h).1
  · right
    exact List.mem_singleton.1 h

/-- A record that was kept is the one of its path. -/
theorem record?_keep_self {records : List UsageRecord} (hs : s.records = keep records r)
    (h : Path.components r.path = Path.components path) : s.record? path = some r := by
  rw [record?, hs, keep, List.find?_append, List.find?_eq_none.2]
  · simp [h]
  · intro x hx
    have := (List.mem_filter.1 hx).2
    rw [h] at this
    simpa using this

/-! ## One file -/

namespace Outcome

/-- The record that a file has after a scan, unless it was skipped. -/
def record? : Outcome → Option UsageRecord
  | reused r => some r
  | refreshed r => some r
  | extracted r => some r
  | skipped _ => none

/-- The records after one outcome. -/
def update (records : List UsageRecord) : Outcome → List UsageRecord
  | refreshed r => keep records r
  | extracted r => keep records r
  | _ => records

theorem mem_of_mem_update {o : Outcome} {records : List UsageRecord} (h : r ∈ o.update records) :
    r ∈ records ∨ o.record? = some r := by
  have hkept {r' : UsageRecord} (h : r ∈ keep records r') : r ∈ records ∨ some r' = some r := by
    rcases mem_keep h with hold | rfl
    · left
      exact hold
    · right
      rfl
  cases o with
  | reused r' => exact .inl h
  | skipped w => exact .inl h
  | refreshed r' => exact hkept h
  | extracted r' => exact hkept h

end Outcome

/-- What may become of something that cannot be read: it is skipped, unless it is taken for unchanged
without being read. -/
theorem scanFile_unread {cause : IoError} (force : Bool) (h : t.read path = .error cause) :
    s.scanFile t force path = .skipped (.unreadable path cause) ∨
    ∃ r content, s.scanFile t force path = .reused r ∧ force = false ∧ s.record? path = some r ∧
      t.lookup path = .ok (.locked content r.written) ∧ r.content.size = content.size := by
  unfold scanFile
  unfold FileTree.read at h
  cases hl : t.lookup path with
  | error cause' =>
    rw [hl] at h
    obtain rfl := Except.error.inj h
    exact .inl rfl
  | ok e =>
    rw [hl] at h
    simp only []
    split
    · rename_i r hr
      obtain ⟨hrecord, hc⟩ := Option.filter_eq_some_iff.1 hr
      simp only [Bool.and_eq_true, Bool.not_eq_true', decide_eq_true_eq] at hc
      cases e with
      | file content written => cases h
      | directory => cases hc.2
      | locked content written =>
        obtain ⟨rfl, hsize⟩ := Prod.mk.inj (Option.some.inj hc.2)
        exact .inr ⟨r, content, rfl, hc.1, hrecord, rfl, hsize.symm⟩
    · left
      cases e with
      | file content written => cases h
      | directory => rw [← Except.error.inj h]
      | locked content written => rw [← Except.error.inj h]

/-- What a scan of a file that may be read leads to: the record that was there, if its time and size
are those of the file and nothing else is asked for, and otherwise one with the file's content. -/
theorem scanFile_file {content : ByteArray} {written : WriteTime} (force : Bool)
    (h : t.lookup path = .ok (.file content written)) :
    (∃ r, s.scanFile t force path = .reused r ∧ force = false ∧ s.record? path = some r ∧
      r.written = written ∧ r.content.size = content.size) ∨
    (∃ r, s.scanFile t force path = .refreshed { r with written } ∧ s.record? path = some r ∧
      r.content = content) ∨
    s.scanFile t force path = .extracted ⟨path, written, content, contentTokens content⟩ := by
  unfold scanFile
  rw [h]
  simp only []
  split
  · rename_i r hr
    obtain ⟨hrecord, hc⟩ := Option.filter_eq_some_iff.1 hr
    simp only [Bool.and_eq_true, Bool.not_eq_true', decide_eq_true_eq] at hc
    obtain ⟨rfl, hsize⟩ := Prod.mk.inj (Option.some.inj hc.2)
    left
    exact ⟨r, rfl, hc.1, hrecord, rfl, hsize.symm⟩
  · split
    · rename_i r hr
      obtain ⟨hrecord, hc⟩ := Option.filter_eq_some_iff.1 hr
      right; left
      exact ⟨r, rfl, hrecord, sameContent_iff.1 hc⟩
    · right; right
      rfl

/-! ## Many files -/

theorem foldl_settle (outcomes : List (String × Outcome)) (records : List UsageRecord)
    (result : ScanResult) :
    (outcomes.foldl (fun acc o => settle acc o.1 o.2) (records, result)).1 =
        outcomes.foldl (fun records o => o.2.update records) records ∧
      (outcomes.foldl (fun acc o => settle acc o.1 o.2) (records, result)).2.files =
        result.files ++ outcomes.filterMap fun o => o.2.record?.map fun r => (o.1, r.tokens) := by
  induction outcomes generalizing records result with
  | nil => exact ⟨rfl, (List.append_nil _).symm⟩
  | cons o outcomes ih =>
    obtain ⟨p, o⟩ := o
    rw [List.foldl_cons, List.foldl_cons, List.filterMap_cons]
    cases o with
    | skipped w => exact ih _ _
    | reused r => exact ⟨(ih _ _).1, (ih _ _).2.trans (List.append_assoc ..)⟩
    | refreshed r => exact ⟨(ih _ _).1, (ih _ _).2.trans (List.append_assoc ..)⟩
    | extracted r => exact ⟨(ih _ _).1, (ih _ _).2.trans (List.append_assoc ..)⟩

/-- What becomes of the records and of the result if some files are all looked at. -/
def settled (s : Scanner) (t : FileTree) (paths : List String) (force : Bool) :
    List UsageRecord × ScanResult :=
  (paths.map fun p => (p, s.scanFile t force p)).foldl (fun acc o => settle acc o.1 o.2)
    (s.records, ⟨[], ⟨0, 0, 0, []⟩⟩)

/-- What is told of some files if they are all looked at. -/
def told (s : Scanner) (t : FileTree) (paths : List String) (force : Bool) : ScanResult :=
  let result := (s.settled t paths force).2
  { result with report := { result.report with tokens := (distinctTokens result.files).length } }

theorem settled_fst (paths : List String) (force : Bool) : (s.settled t paths force).1 =
    paths.foldl (fun records p => (s.scanFile t force p).update records) s.records :=
  (foldl_settle _ _ _).1.trans List.foldl_map

/-- The files that are listed, with their tokens. -/
theorem files_told (paths : List String) (force : Bool) : (s.told t paths force).files =
    paths.filterMap fun p => (s.scanFile t force p).record?.map fun r => (p, r.tokens) := by
  refine (foldl_settle _ _ _).2.trans ?_
  rw [List.nil_append, List.filterMap_map]
  rfl

theorem outcomes_eq (t : FileTree) (force : Bool) (paths : List String) (s : Scanner) :
    (s.outcomes t force paths).1 = s.passed paths.length ∧
      (s.stopsWithin paths.length = false →
        (s.outcomes t force paths).2 = paths.map fun p => (p, s.scanFile t force p)) := by
  induction paths generalizing s with
  | nil => exact ⟨s.passed_zero.symm, fun _ => rfl⟩
  | cons p paths ih =>
    rw [outcomes, pass?_eq, List.length_cons, Nat.add_comm, stopsWithin_add, passed_add]
    cases h : s.stopsWithin 1 with
    | true =>
      refine ⟨?_, fun hrest => by simp at hrest⟩
      rw [if_pos rfl, passed_eq_stopped (stopsWithin_succ h), ← eq_stopped h]
      exact (ih s).1
    | false =>
      rw [if_neg Bool.false_ne_true]
      refine ⟨(ih _).1, fun hrest => ?_⟩
      exact congrArg ((p, s.scanFile t force p) :: ·) ((ih _).2 (by simpa using hrest))

/-- **A scan of files is cut short and changes nothing, or all files are looked at.** -/
theorem scanFiles_eq (s : Scanner) (t : FileTree) (paths : List String) (force : Bool) :
    s.scanFiles t paths force = if s.stopsWithin (paths.length + 1) then
      (s.stopped, .error .cancelled)
    else ({ s with records := (s.settled t paths force).1, stop := none },
      .ok (s.told t paths force)) := by
  obtain ⟨hfst, hsnd⟩ := outcomes_eq t force paths s
  unfold scanFiles
  simp only [hfst, pass?_eq]
  rw [stopsWithin_add]
  cases h : s.stopsWithin paths.length with
  | true =>
    have hlate : (s.passed paths.length).stopsWithin 1 = true := by
      rw [passed_eq_stopped (stopsWithin_succ h)]
      rfl
    rw [hlate, if_pos rfl, passed_eq_stopped (stopsWithin_succ h)]
    rfl
  | false =>
    rw [Bool.false_or, hsnd h]
    cases hlate : (s.passed paths.length).stopsWithin 1 with
    | true =>
      have hstops : s.stopsWithin (paths.length + 1) = true := by rw [stopsWithin_add, h, hlate]; rfl
      rw [if_pos rfl, if_pos rfl, passed_eq_stopped hstops]
    | false => rfl

/-- How often a scan looks out for a request to stop, unless it hears one before. -/
def looks (s : Scanner) (t : FileTree) : Nat := s.walkLooks t + ((s.content t).1.length + 1)

/-- **A scan is cut short and changes nothing, or it finds what there is.** -/
theorem scan_eq (s : Scanner) (t : FileTree) : s.scan t =
    if s.stopsWithin (s.looks t) then (s.stopped, .error .cancelled)
    else
      let found := s.told t (s.content t).1 false
      ({ s with records := (s.settled t (s.content t).1 false).1, stop := none },
        .ok { found with
          report := { found.report with
            warnings := (s.content t).2 ++ found.report.warnings } }) := by
  rw [scan, walk_eq, looks, stopsWithin_add]
  cases h : s.stopsWithin (s.walkLooks t) with
  | true => rw [passed_eq_stopped (stopsWithin_succ h)]; rfl
  | false =>
    simp only [Bool.false_or, Bool.false_eq_true, if_false, scanFiles_eq]
    cases (s.passed (s.walkLooks t)).stopsWithin ((s.content t).1.length + 1) <;> rfl

/-! ## Scans that are not cut short -/

theorem stopsWithin_of_stop_eq_none (hs : s.stop = none) (looks : Nat) :
    s.stopsWithin looks = false := by
  rw [stopsWithin, hs]
  rfl

theorem scanFiles_ok (h : (s.scanFiles t paths force).2 = .ok result) :
    (s.scanFiles t paths force).1 =
        { s with records := (s.settled t paths force).1, stop := none } ∧
      result = s.told t paths force := by
  rw [scanFiles_eq] at h ⊢
  split at h
  · cases h
  · rename_i hstops
    rw [if_neg hstops]
    exact ⟨rfl, (Except.ok.inj h).symm⟩

/-- Without a request to stop, a scan of files succeeds. -/
theorem scanFiles_of_stop_eq_none (hs : s.stop = none) (paths : List String) (force : Bool) :
    (s.scanFiles t paths force).2 = .ok (s.told t paths force) := by
  rw [scanFiles_eq, stopsWithin_of_stop_eq_none hs, if_neg Bool.false_ne_true]

theorem scan_ok (h : (s.scan t).2 = .ok result) :
    (s.scan t).1.stop = none ∧ result.files = (s.told t (s.content t).1 false).files ∧
      result.report = { (s.told t (s.content t).1 false).report with
        warnings := (s.content t).2 ++ (s.told t (s.content t).1 false).report.warnings } := by
  rw [scan_eq] at h ⊢
  split at h
  · cases h
  · rename_i hstops
    rw [if_neg hstops]
    obtain rfl := Except.ok.inj h
    exact ⟨rfl, rfl, rfl⟩

/-- Without a request to stop, a scan succeeds, whatever it finds. -/
theorem scan_of_stop_eq_none (hs : s.stop = none) : ∃ result, (s.scan t).2 = .ok result := by
  rw [scan_eq, stopsWithin_of_stop_eq_none hs, if_neg Bool.false_ne_true]
  exact ⟨_, rfl⟩

/-! ## Calls -/

/-- A call of the scanner that leaves something behind in it, other than a request to stop. -/
inductive Call where
  | scan
  | scanPaths (paths : List String)
  | forget (path : String)
  | invalidate
  | resetCancel

/-- The scanner after a call. -/
def after (s : Scanner) (t : FileTree) : Call → Scanner
  | .scan => (s.scan t).1
  | .scanPaths paths => (s.scanPaths t paths).1
  | .forget path => (s.forget t path).1
  | .invalidate => s.invalidate
  | .resetCancel => s.resetCancel

/-- The second scanner is the first one after some calls. -/
def Ran (t : FileTree) : Scanner → Scanner → Prop :=
  Relation.ReflTransGen fun s s' => ∃ call, s.after t call = s'

theorem ran_after (call : Call) : s.Ran t (s.after t call) := .single ⟨call, rfl⟩

/-- Scanners that look for the same files. -/
structure SameFiles (s s' : Scanner) : Prop where
  root : s'.root = s.root
  globs : s'.globs = s.globs

namespace SameFiles

theorem trans (h : s.SameFiles s') (h' : s'.SameFiles s'') : s.SameFiles s'' :=
  ⟨h'.root.trans h.root, h'.globs.trans h.globs⟩

theorem resolvePath (h : s.SameFiles s') (path : String) :
    s'.resolvePath t path = s.resolvePath t path := by
  simp only [Scanner.resolvePath, rootPath, h.root]

theorem isContent (h : s.SameFiles s') (path : String) : s'.isContent path = s.isContent path := by
  simp only [Scanner.isContent, patternIndex?, h.root, h.globs]

end SameFiles

theorem sameFiles_scanFiles (paths : List String) (force : Bool) :
    s.SameFiles (s.scanFiles t paths force).1 := by
  rw [scanFiles_eq]
  split <;> exact ⟨rfl, rfl⟩

theorem sameFiles_after (call : Call) : s.SameFiles (s.after t call) := by
  cases call with
  | scan =>
    show s.SameFiles (s.scan t).1
    rw [scan_eq]
    split <;> exact ⟨rfl, rfl⟩
  | scanPaths paths => exact sameFiles_scanFiles _ _
  | forget path => exact ⟨rfl, rfl⟩
  | invalidate => exact ⟨rfl, rfl⟩
  | resetCancel => exact ⟨rfl, rfl⟩

/-- No call makes a scanner look for other files. -/
theorem Ran.sameFiles (h : s.Ran t s') : s.SameFiles s' := by
  induction h with
  | refl => exact ⟨rfl, rfl⟩
  | tail _ hcall ih =>
    obtain ⟨call, rfl⟩ := hcall
    exact ih.trans (sameFiles_after call)

theorem stop_scanFiles (hs : s.stop = none) (paths : List String) (force : Bool) :
    (s.scanFiles t paths force).1.stop = none := by
  rw [scanFiles_eq, stopsWithin_of_stop_eq_none hs, if_neg Bool.false_ne_true]

/-- No call asks the scanner to stop. -/
theorem Ran.running (h : s.Ran t s') (hs : s.stop = none) : s'.stop = none := by
  induction h with
  | refl => exact hs
  | tail _ hcall ih =>
    obtain ⟨call, rfl⟩ := hcall
    cases call with
    | scan =>
      obtain ⟨result, hr⟩ := scan_of_stop_eq_none (t := t) ih
      exact (scan_ok hr).1
    | scanPaths paths => exact stop_scanFiles ih _ true
    | forget path => exact ih
    | invalidate => exact ih
    | resetCancel => rfl

/-! ## Scanning a reported file once more -/

/-- Right after a file was read, reading it again leads to the same tokens. -/
theorem tokens_scanFile_again (h : s'.records = (s.scanFile t true path).update s.records) :
    (s'.scanFile t true path).record?.map (·.tokens) =
      (s.scanFile t true path).record?.map (·.tokens) := by
  by_cases hl : ∃ content written, t.lookup path = .ok (.file content written)
  · obtain ⟨content, written, hl⟩ := hl
    have hagain {r : UsageRecord} (hk : s'.records = keep s.records r)
        (hp : Path.components r.path = Path.components path) (hr : r.content = content) :
        s'.scanFile t true path = .refreshed { r with written } := by
      have hr? : s'.record? path = some r := record?_keep_self hk hp
      have hsame : (some r).filter (fun r => sameContent r.content content) = some r :=
        Option.filter_eq_some_iff.2 ⟨rfl, sameContent_iff.2 hr⟩
      unfold scanFile
      rw [hl, hr?]
      simp [hsame]
    rcases scanFile_file (s := s) true hl with ⟨r, -, hf, -⟩ | ⟨r, heq, hr, hc⟩ | heq
    · cases hf
    · rw [heq] at h ⊢
      rw [hagain h (record?_eq_some hr).2 hc]
    · rw [heq] at h ⊢
      rw [hagain h rfl rfl]
      rfl
  · -- what cannot be read is skipped, for a reported file is always read
    have hskip (s : Scanner) : (s.scanFile t true path).record? = none := by
      cases hread : t.read path with
      | ok content =>
        obtain ⟨written, hlookup⟩ := FileTree.lookup_of_read hread
        exact absurd ⟨content, written, hlookup⟩ hl
      | error cause =>
        rcases scanFile_unread (s := s) true hread with heq | ⟨r, content, -, hforce, -⟩
        · rw [heq]
          rfl
        · cases hforce
    rw [hskip, hskip]

theorem scanPaths_again (h : (s.scanPaths t [path]).2 = .ok result) :
    ∃ result', ((s.scanPaths t [path]).1.scanPaths t [path]).2 = .ok result' ∧
      result'.files = result.files := by
  obtain ⟨hfst, rfl⟩ := scanFiles_ok h
  have hsame : s.SameFiles (s.scanPaths t [path]).1 := sameFiles_after (.scanPaths [path])
  have hrecords : (s.scanPaths t [path]).1.records =
      (s.scanFile t true (s.resolvePath t path)).update s.records :=
    (congrArg (·.records) hfst).trans (settled_fst [s.resolvePath t path] true)
  have hstop : (s.scanPaths t [path]).1.stop = none := congrArg (·.stop) hfst
  refine ⟨_, scanFiles_of_stop_eq_none hstop _ true, ?_⟩
  rw [files_told, files_told]
  -- the second scan looks at the same place with the record that the first one has left
  have htok := tokens_scanFile_again hrecords
  simp only [List.map_cons, List.map_nil, hsame.resolvePath, List.filterMap_cons,
    List.filterMap_nil]
  generalize ((s.scanPaths t [path]).1.scanFile t true (s.resolvePath t path)).record? = o'
    at htok ⊢
  generalize (s.scanFile t true (s.resolvePath t path)).record? = o at htok ⊢
  cases o with
  | none => rw [Option.map_eq_none_iff.1 htok]
  | some r =>
    obtain ⟨r', rfl, hr⟩ := Option.map_eq_some_iff.1 htok
    rw [Option.map_some, Option.map_some, hr]

end AtomicCss.Usage.Scanner
