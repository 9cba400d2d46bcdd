import AtomicCss.Build.Error
import AtomicCss.Glob.Match
import AtomicCss.Usage.Token

/-!
# Scanning content

A scanner finds the content files under its root and the tokens in each. It keeps a record of every
file that it has read. A file whose time and size are those of its record is not read again; a file
whose content is that of its record keeps the record's tokens.

A scan may be cancelled while it runs. It looks out for a request to stop before everything that its
walk meets, before every file, and once more before what it has read goes into the records. A
cancelled scan leaves all records as they are. Requests are withdrawn between scans only.
-/

namespace AtomicCss.Usage

/-- What a scanner could not read. -/
inductive ScanWarning where
  | unreadable (path : String) (cause : IoError)
  | walk (path : String) (cause : IoError)
  deriving DecidableEq, Repr

def ScanWarning.message : ScanWarning → String
  | unreadable path cause => "ScannerIOError: skipped '" ++ path ++ "': " ++ cause.message
  | walk path cause =>
    "ScannerIOError: IO error for operation on " ++ path ++ ": " ++ cause.message

/-- What a scan did. -/
structure ScanReport where
  filesScanned : Nat
  filesReused : Nat
  /-- The number of different tokens. -/
  tokens : Nat
  warnings : List ScanWarning
  deriving DecidableEq, Repr

/-- The tokens of each scanned file. -/
structure ScanResult where
  files : List (String × List String)
  report : ScanReport
  deriving DecidableEq, Repr

/-- All tokens of some files, each once and in order. -/
def distinctTokens (files : List (String × List String)) : List String :=
  ((files.flatMap (·.2)).mergeSort (· ≤ ·)).eraseReps

/-- What a file was like when it was read last. -/
structure UsageRecord where
  path : String
  written : WriteTime
  content : ByteArray
  tokens : List String

/-- A scanner with its records. -/
structure Scanner where
  root : Location
  patterns : List String
  globs : List (List Glob.Piece)
  records : List UsageRecord
  /-- How often the next scan looks out for a request to stop before there is one. A request that the
  scan is over before is one that comes after it. -/
  stop : Option Nat

namespace Scanner

/-- A pattern as it is compared with paths: an initial `./` does not count. -/
def withoutDot (pattern : String) : String :=
  match pattern.toList with
  | '.' :: '/' :: rest => String.ofList rest
  | _ => pattern

/-- A scanner for the content files under a directory that match one of the patterns. -/
def new (t : FileTree) (root : String) (patterns : List String) : Except BuildError Scanner := do
  let location ← (t.locate root).mapError (.io root)
  let patterns := patterns.map Text.trimmed
  let globs ← (patterns.mapM fun p => Glob.parse (withoutDot p)).mapError .glob
  return ⟨location, patterns, globs, [], none⟩

def rootPath (s : Scanner) : String := s.root.path

/-- The absolute path that a path means, in its plain form where it exists. The path of a file that
does not exist is that of its directory with its name. -/
def resolvePath (s : Scanner) (t : FileTree) (path : String) : String :=
  let path := Path.join s.rootPath path
  match t.locate path with
  | .ok l => l.path
  | .error _ =>
    match (Path.parent? path).map t.locate, Path.fileName? path with
    | some (.ok dir), some name => Path.join dir.path name
    | _, _ => path

/-- The first pattern that describes a path under the root. -/
def patternIndex? (s : Scanner) (path : String) : Option Nat :=
  (Path.below? s.root path).bind fun relative =>
    s.globs.findIdx? fun pattern => Glob.accepts pattern relative

/-- Whether a path is that of a content file. -/
def isContent (s : Scanner) (path : String) : Bool := (s.patternIndex? path).isSome

/-! ### Requests to stop -/

/-- Whether a request to stop is there already. -/
def cancelled (s : Scanner) : Bool := s.stop == some 0

/-- Looks out for a request to stop, and goes on if there is none. -/
def pass? (s : Scanner) : Option Scanner :=
  match s.stop with
  | none => some s
  | some 0 => none
  | some (n + 1) => some { s with stop := some n }

/-- Asks the next scan to stop, which is heard after some looks. An earlier request stays. -/
def cancelAfter (s : Scanner) (looks : Nat) : Scanner :=
  { s with stop := some (min looks (s.stop.getD looks)) }

/-- Asks the next scan to stop at once. -/
def cancel (s : Scanner) : Scanner := s.cancelAfter 0

def resetCancel (s : Scanner) : Scanner := { s with stop := none }

/-! ### Finding files -/

/-- Whether a found file comes before another one: by its pattern, then by its path. -/
def foundBefore (a b : Nat × Location) : Bool :=
  a.1 < b.1 || (a.1 == b.1 && a.2.precedes b.2)

/-- A file with the first pattern that describes it, if there is one. -/
def found? (s : Scanner) : Location × FileEntry → Option (Nat × Location)
  | (_, .directory) => none
  | (l, _) => (s.patternIndex? l.path).map (·, l)

/-- Goes through what a walk meets. -/
def visit (s : Scanner) (found : List (Nat × Location)) :
    List (Location × FileEntry) → Scanner × Except BuildError (List (Nat × Location))
  | [] => (s, .ok found)
  | x :: met =>
    match s.pass? with
    | none => (s, .error .cancelled)
    | some s => s.visit (found ++ (s.found? x).toList) met

/-- The content files, ordered by the first pattern that describes them and then by path, and what is
reported if the root is gone. -/
def walk (s : Scanner) (t : FileTree) :
    Scanner × Except BuildError (List String × List ScanWarning) :=
  match t.locate s.rootPath with
  | .error cause =>
    match s.pass? with
    | none => (s, .error .cancelled)
    | some s => (s, .ok ([], [.walk s.rootPath cause]))
  | .ok _ =>
    let (s, found) := s.visit [] (t.walkFrom s.root)
    (s, found.map fun found => ((found.mergeSort foundBefore).map (·.2.path), []))

def discover (s : Scanner) (t : FileTree) : Except BuildError (List String) :=
  (s.walk t).2.map (·.1)

/-! ### Scanning files -/

def record? (s : Scanner) (path : String) : Option UsageRecord :=
  s.records.find? fun r => Path.components r.path = Path.components path

/-- The tokens of a file's content. Bytes beyond ASCII belong to no token, whatever they mean. -/
def contentTokens (content : ByteArray) : List String :=
  tokens (String.ofList (content.toList.map fun b => if b < 128 then Char.ofNat b.toNat else '\uFFFD'))

/-- What became of one file. -/
inductive Outcome where
  /-- Neither time nor size has changed. -/
  | reused (record : UsageRecord)
  /-- The content has not changed. -/
  | refreshed (record : UsageRecord)
  | extracted (record : UsageRecord)
  | skipped (warning : ScanWarning)

/-- Looks at one file. With `force`, it is read even if its time and size have not changed. -/
def scanFile (s : Scanner) (t : FileTree) (force : Bool) (path : String) : Outcome :=
  match t.lookup path with
  | .error cause => .skipped (.unreadable path cause)
  | .ok e =>
    let known := s.record? path
    -- a file of the same time and size is taken for unchanged without reading it
    match known.filter fun r => !force && e.metadata? = some (r.written, r.content.size) with
    | some r => .reused r
    | none =>
      match e with
      | .directory => .skipped (.unreadable path .isADirectory)
      | .locked .. => .skipped (.unreadable path .permissionDenied)
      | .file content written =>
        match known.filter fun r => sameContent r.content content with
        | some r => .refreshed { r with written }
        | none => .extracted ⟨path, written, content, contentTokens content⟩

/-- Puts a record in place of the one for its path. -/
def keep (records : List UsageRecord) (r : UsageRecord) : List UsageRecord :=
  records.filter (fun x => Path.components x.path ≠ Path.components r.path) ++ [r]

/-- Takes what became of a file into the records and the result. -/
def settle (acc : List UsageRecord × ScanResult) (path : String) (o : Outcome) :
    List UsageRecord × ScanResult :=
  let (records, result) := acc
  let report := result.report
  match o with
  | .reused r =>
    (records, ⟨result.files ++ [(path, r.tokens)],
      { report with filesReused := report.filesReused + 1 }⟩)
  | .refreshed r =>
    (keep records r, ⟨result.files ++ [(path, r.tokens)],
      { report with filesReused := report.filesReused + 1 }⟩)
  | .extracted r =>
    (keep records r, ⟨result.files ++ [(path, r.tokens)],
      { report with filesScanned := report.filesScanned + 1 }⟩)
  | .skipped w => (records, { result with report := { report with warnings := report.warnings ++ [w] } })

/-- What became of some files, in order. The files that come after a request to stop are passed over.
In which order the others are looked at does not matter, for no record changes on the way. -/
def outcomes (s : Scanner) (t : FileTree) (force : Bool) :
    List String → Scanner × List (String × Outcome)
  | [] => (s, [])
  | path :: paths =>
    match s.pass? with
    | none => s.outcomes t force paths
    | some s =>
      let (s', rest) := s.outcomes t force paths
      (s', (path, s.scanFile t force path) :: rest)

/-- Scans files. All of them are looked at before any record changes. -/
def scanFiles (s : Scanner) (t : FileTree) (paths : List String) (force : Bool) :
    Scanner × Except BuildError ScanResult :=
  let (s, outcomes) := s.outcomes t force paths
  match s.pass? with
  | none => (s, .error .cancelled)
  | some s =>
    let (records, result) :=
      outcomes.foldl (fun acc o => settle acc o.1 o.2) (s.records, ⟨[], ⟨0, 0, 0, []⟩⟩)
    let tokens := (distinctTokens result.files).length
    -- a request that was not heard by now does not concern this scan
    ({ s with records, stop := none },
      .ok { result with report := { result.report with tokens } })

def scan (s : Scanner) (t : FileTree) : Scanner × Except BuildError ScanResult :=
  match s.walk t with
  | (s, .error cause) => (s, .error cause)
  | (s, .ok (paths, warnings)) =>
    let (s, result) := s.scanFiles t paths false
    (s, result.map fun r =>
      { r with report := { r.report with warnings := warnings ++ r.report.warnings } })

/-- Scans the given files, whether or not they have changed. -/
def scanPaths (s : Scanner) (t : FileTree) (paths : List String) :
    Scanner × Except BuildError ScanResult :=
  s.scanFiles t (paths.map (s.resolvePath t)) true

/-! ### Records -/

/-- Drops the record of a path; also says whether there was one. -/
def forget (s : Scanner) (t : FileTree) (path : String) : Scanner × Bool :=
  let path := s.resolvePath t path
  ({ s with records := s.records.filter fun r => Path.components r.path ≠ Path.components path },
    (s.record? path).isSome)

def invalidate (s : Scanner) : Scanner := { s with records := [] }

end Scanner

end AtomicCss.Usage
