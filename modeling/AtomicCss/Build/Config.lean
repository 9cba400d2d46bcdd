import AtomicCss.Build.Error
import AtomicCss.Engine
import AtomicCss.Format.Toml.Reader

/-!
# The settings of a build

A build is set up by the patterns of its content files, the directory that they are relative to,
the place of the sheet, the mode, and the place of the config. Settings may be read from a file.
-/

namespace AtomicCss

/-- The settings of a build. -/
structure BuildConfig where
  content : List String
  root : String
  output : Option String
  mode : Option EmitMode
  configPath : Option String
  deriving DecidableEq, Repr

namespace BuildConfig

/-- The settings that hold where nothing else is said. -/
def standard : BuildConfig := ⟨[], ".", none, none, none⟩

/-- The mode of the build. Unless one is set, classes are emitted on demand if there is content. -/
def effectiveMode (c : BuildConfig) : EmitMode :=
  c.mode.getD (if c.content.isEmpty then .eager else .onDemand)

/-! ### Reading -/

def string? : Toml → Option String
  | .string text => some text
  | _ => none

def strings? : Toml → Option (List String)
  | .array items => items.mapM string?
  | _ => none

def modeNamed? (name : String) : Option EmitMode :=
  if name = "eager" then some .eager else if name = "on-demand" then some .onDemand else none

/-- A mode: its name, or a table with an empty value under the name. -/
def mode? : Toml → Option EmitMode
  | .string name => modeNamed? name
  | .table _ [(name, .table _ [])] => modeNamed? name
  | .table _ [(name, .array [])] => modeNamed? name
  | _ => none

/-- Takes one setting. There are no settings under other names. -/
def set (c : BuildConfig) (entry : String × Toml) : Option BuildConfig :=
  let (name, v) := entry
  if name = "content" then (strings? v).map fun content => { c with content }
  else if name = "root" then (string? v).map fun root => { c with root }
  else if name = "output" then (string? v).map fun output => { c with output := some output }
  else if name = "mode" then (mode? v).map fun mode => { c with mode := some mode }
  else if name = "config-path" then (string? v).map fun path => { c with configPath := some path }
  else none

def ofToml (text : String) : Except BuildError BuildConfig :=
  match (Toml.read? text).bind fun entries => entries.foldlM set standard with
  | some c => .ok c
  | none => .error .config

/-- The settings that a file states. Their paths are relative to the directory of the file. -/
def ofFile (t : FileTree) (path : String) : Except BuildError BuildConfig := do
  let text ← (t.readText path).mapError (.io path)
  let c ← ofToml text
  let base := (Path.parent? path).getD "."
  return { c with
    root := Path.join base c.root
    output := c.output.map (Path.join base)
    configPath := c.configPath.map (Path.join base) }

end BuildConfig

end AtomicCss
