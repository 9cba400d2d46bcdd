import AtomicCss.Error
import AtomicCss.Files.Tree
import AtomicCss.Glob.Pattern

/-!
# Errors of a build
-/

namespace AtomicCss

/-- Why a step of a build fails. -/
inductive BuildError where
  /-- The config's own evaluation, or the sheet, fails. -/
  | core (cause : Error)
  | io (path : String) (cause : IoError)
  | glob (cause : Glob.PatternError)
  /-- A build config that cannot be read. -/
  | config
  | cancelled
  /-- A step that needs a compiled session. -/
  | noSession
  deriving DecidableEq, Repr

namespace BuildError

/-- The message of an error. A config's fault has none of its own. -/
def message : BuildError → String
  | core cause => cause.message
  | io path cause => "I/O error on '" ++ path ++ "': " ++ cause.message
  | glob cause => "Invalid content pattern: " ++ cause.message
  | config => "Invalid build config"
  | cancelled => "Build cancelled"
  | noSession => "No compiled session; call compile first"

def isCancelled : BuildError → Bool
  | cancelled => true
  | _ => false

end BuildError

end AtomicCss
