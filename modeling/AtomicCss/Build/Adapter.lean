import AtomicCss.Build.Config
import AtomicCss.Manifest.Coding
import AtomicCss.Session
import AtomicCss.Usage.Scanner

/-!
# Builds

An adapter drives one build for a bundler. A cold build evaluates the config from scratch, scans
all content if classes are emitted on demand, commits what the content uses, and writes the sheet.
After that the bundler reports changed files: a changed config leads to a cold build, a changed
content file is scanned alone and its tokens are committed on top of the session.

The adapter looks at files only through the tree that it is given with each call.
-/

namespace AtomicCss

/-- A config that can be evaluated again and again, each time from scratch. -/
structure ConfigEntry where
  /-- The file that the config comes from. -/
  source : Option String
  /-- What the config states when it is evaluated for the `n`-th time, counting from 0. -/
  evaluate : (n : Nat) → EmitMode → Except Error Engine

/-- The state of a build: the engine with what was committed into it, the sheet that is served, and
what the config's file held at the cold build. -/
structure BuildSession where
  engine : Engine
  cache : SessionCache
  css : String
  configContent : Option ByteArray

/-- What became of a changed file. -/
inductive FileChange where
  | coldRebuild
  /-- A content file was scanned and its tokens were committed. -/
  | incremental (report : CommitReport)
  /-- A content file is gone; its record was dropped and its rules stay. -/
  | removed
  | ignored
  deriving DecidableEq, Repr

/-- A build with its settings, its scanner, the config with the number of its evaluations so far,
and the session. -/
structure Adapter where
  config : BuildConfig
  scanner : Usage.Scanner
  entry : Option (ConfigEntry × Nat)
  session : Option BuildSession
  lastScan : Option Usage.ScanReport

namespace Adapter

/-- An adapter that has not built anything. -/
def new (t : FileTree) (config : BuildConfig) : Except BuildError Adapter := do
  return ⟨config, ← Usage.Scanner.new t config.root config.content, none, none, none⟩

/-- The files of the config: the one that the settings name, and the one that it comes from. -/
def configPaths (a : Adapter) : List String :=
  a.config.configPath.toList ++ (a.entry.bind (·.1.source)).toList

/-- The content of a file, if it can be read. -/
def contentAt? (t : FileTree) (path : String) : Option ByteArray := (t.read path).toOption

/-- Scans. A request to stop is used up by the scan that it stops. -/
def scan (a : Adapter)
    (run : Usage.Scanner → Usage.Scanner × Except BuildError Usage.ScanResult) :
    Adapter × Except BuildError Usage.ScanResult :=
  match run a.scanner with
  | (s, .error .cancelled) => ({ a with scanner := s.resetCancel }, .error .cancelled)
  | (s, result) => ({ a with scanner := s }, result)

/-! ### Cold builds -/

/-- The session that starts with an engine. -/
def startSession (a : Adapter) (t : FileTree) (entry : ConfigEntry) (engine : Engine)
    (cache : SessionCache) : Except BuildError BuildSession := do
  let css ← (engine.sheet .standard).mapError .core
  return ⟨engine, cache, css, (a.config.configPath.or entry.source).bind (contentAt? t)⟩

/-- The session of a cold build, the config being evaluated for the `n`-th time. -/
def coldSession (a : Adapter) (t : FileTree) (entry : ConfigEntry) (n : Nat) :
    Adapter × Except BuildError BuildSession :=
  match entry.evaluate n a.config.effectiveMode, a.config.effectiveMode with
  | .error cause, _ => (a, .error (.core cause))
  | .ok engine, .eager => (a, a.startSession t entry engine ∅)
  | .ok engine, .onDemand =>
    match a.scan (·.scan t) with
    | (a, .error cause) => (a, .error cause)
    | (a, .ok result) =>
      match (Commit.start engine ∅).tokens (Usage.distinctTokens result.files) with
      | .error cause => (a, .error (.core cause))
      | .ok k =>
        ({ a with lastScan := some result.report }, a.startSession t entry k.engine k.cache)

/-- Builds with another config. The config and the session are replaced if that succeeds. -/
def compile (a : Adapter) (t : FileTree) (entry : ConfigEntry) :
    Adapter × Except BuildError String :=
  match a.coldSession t entry 0 with
  | (a, .error cause) => (a, .error cause)
  | (a, .ok session) => ({ a with entry := some (entry, 1), session }, .ok session.css)

def rebuild (a : Adapter) (t : FileTree) : Adapter × Except BuildError String :=
  match a.entry with
  | none => (a, .error .noSession)
  | some (entry, n) =>
    let (a, result) := a.coldSession t entry n
    -- the evaluation counts, whatever has become of it
    let a := { a with entry := some (entry, n + 1) }
    match result with
    | .error cause => (a, .error cause)
    | .ok session => ({ a with session }, .ok session.css)

/-! ### Changed files -/

/-- Whether a path is that of a file of the config. -/
def isConfigPath (a : Adapter) (t : FileTree) (path : String) : Bool :=
  a.configPaths.any fun p =>
    Path.components (a.scanner.resolvePath t p) = Path.components path

/-- A changed file of the config: a cold build, unless its content is what it was. -/
def configChanged (a : Adapter) (t : FileTree) (session : BuildSession) (path : String) :
    Adapter × Except BuildError FileChange :=
  let unchanged := (contentAt? t path).any fun c => session.configContent.any (sameContent c)
  if unchanged then (a, .ok .ignored)
  else
    let (a, result) := a.rebuild t
    (a, result.map fun _ => .coldRebuild)

/-- The session after some tokens were committed. The sheet is written again if that generated
anything. -/
def commitTokens (session : BuildSession) (tokens : List String) :
    Except BuildError (BuildSession × Except BuildError CommitReport) := do
  let k ← ((Commit.start session.engine session.cache).tokens tokens).mapError .core
  let session := { session with engine := k.engine, cache := k.cache }
  if k.report.changed then
    match session.engine.sheet .standard with
    | .ok css => return ({ session with css }, .ok k.report)
    -- what was committed stays in the session, next to the sheet from before
    | .error cause => return (session, .error (.core cause))
  else return (session, .ok k.report)

/-- A changed content file: it is scanned, and its tokens are committed. -/
def contentChanged (a : Adapter) (t : FileTree) (session : BuildSession) (path : String) :
    Adapter × Except BuildError FileChange :=
  match a.scan (·.scanPaths t [path]) with
  | (a, .error cause) => (a, .error cause)
  | (a, .ok result) =>
    match commitTokens session (Usage.distinctTokens result.files) with
    | .error cause => (a, .error cause)
    | .ok (session, .error cause) => ({ a with session }, .error cause)
    | .ok (session, .ok report) =>
      ({ a with session, lastScan := some result.report }, .ok (.incremental report))

def fileChanged (a : Adapter) (t : FileTree) (path : String) :
    Adapter × Except BuildError FileChange :=
  match a.session with
  | none => (a, .error .noSession)
  | some session =>
    let path := a.scanner.resolvePath t path
    -- a file of the config is never content, even if a pattern describes it
    if a.isConfigPath t path then a.configChanged t session path
    else if !a.scanner.isContent path then (a, .ok .ignored)
    else if !t.pathExists path then
      ({ a with scanner := (a.scanner.forget t path).1 }, .ok .removed)
    else if a.config.effectiveMode = .eager then (a, .ok .ignored)
    else a.contentChanged t session path

/-! ### Results -/

def css? (a : Adapter) : Option String := a.session.map (·.css)

/-- The engine of the session, for those who use what the config exports. -/
def engine (a : Adapter) : Except BuildError Engine :=
  a.session.elim (.error .noSession) fun s => .ok s.engine

/-- Writes the sheet to its place, if it has one. The directories on the way are made first, and
stay even if the sheet cannot be written. -/
def writeOutput (a : Adapter) (t : FileTree) : FileTree × Except BuildError (Option String) :=
  match a.session, a.config.output with
  | none, _ => (t, .error .noSession)
  | some _, none => (t, .ok none)
  | some session, some output =>
    let parent := (Path.parent? output).getD ""
    let (t, made) := if parent = "" then (t, .ok ()) else t.makeDirectories parent
    match made with
    | .error cause => (t, .error (.io parent cause))
    | .ok () =>
      match t.write output session.css.toUTF8 none with
      | .error cause => (t, .error (.io output cause))
      | .ok t => (t, .ok (some output))

end Adapter

end AtomicCss
