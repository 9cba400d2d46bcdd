import AtomicCss.Build.Adapter

/-!
# Watched files

A watch list holds what a build wants to hear about. Things are watched by where they stand and not
by how they are spelled, so watching something twice is the same as watching it once. Which events
are reported of what is watched, and when, is not said here; that the system accepts what is to be
watched is taken for granted.
-/

namespace AtomicCss

/-- The watched files and directories, each once. -/
structure WatchList where
  watched : List Location
  deriving DecidableEq, Repr

namespace WatchList

def empty : WatchList := ⟨[]⟩

instance : EmptyCollection WatchList := ⟨empty⟩

def size (w : WatchList) : Nat := w.watched.length

/-- Watches what a path names, which has to exist. -/
def watch (w : WatchList) (t : FileTree) (path : String) : WatchList × Except BuildError Unit :=
  match t.locate path with
  | .error cause => (w, .error (.io path cause))
  | .ok l => (if l ∈ w.watched then w else ⟨w.watched ++ [l]⟩, .ok ())

/-- Stops watching what a path names. A path that names nothing is passed over. -/
def unwatch (w : WatchList) (t : FileTree) (path : String) : WatchList :=
  match t.locate path with
  | .error _ => w
  | .ok l => ⟨w.watched.filter (· ≠ l)⟩

/-- Watches several paths up to the first one that cannot be watched. -/
def watchAll (w : WatchList) (t : FileTree) : List String → WatchList × Except BuildError Unit
  | [] => (w, .ok ())
  | path :: paths =>
    match w.watch t path with
    | (w, .ok ()) => w.watchAll t paths
    | (w, .error cause) => (w, .error cause)

/-- Watches everything that a build depends on: its content, and the files of its config. -/
def watchAdapter (w : WatchList) (t : FileTree) (a : Adapter) :
    WatchList × Except BuildError Unit :=
  w.watchAll t (a.scanner.rootPath :: a.configPaths.map (a.scanner.resolvePath t))

end WatchList

namespace Adapter

/-- Takes note of changed files in turn, whether or not one of them fails. -/
def filesChanged (a : Adapter) (t : FileTree) :
    List String → Adapter × List (Except BuildError FileChange)
  | [] => (a, [])
  | path :: paths =>
    let (a, result) := a.fileChanged t path
    let (a, results) := a.filesChanged t paths
    (a, result :: results)

/-- Takes note of all changes. What became of them is told unless one has failed. -/
def applyChanges (a : Adapter) (t : FileTree) (paths : List String) :
    Adapter × Except BuildError (List FileChange) :=
  let (a, results) := a.filesChanged t paths
  (a, results.mapM id)

end Adapter

end AtomicCss
