import AtomicCss.Files.Path

/-!
# File trees

The files that a build sees: directories and files with their content and the time of their last
write. A path is looked up segment by segment, from the root of the tree if it is absolute and from
the working directory if it is not. A file may be locked: then it has a time and a size like every
other file, but can neither be read nor written.

There are no links. Every directory can be listed, and the working directory is told by its place.
-/

namespace AtomicCss

/-- Why a file operation fails. -/
inductive IoError where
  | notFound
  | alreadyExists
  | notADirectory
  | isADirectory
  | permissionDenied
  | notUtf8
  deriving DecidableEq, Repr

/-- The message of a failed file operation. -/
def IoError.message : IoError → String
  | notFound => "No such file or directory (os error 2)"
  | alreadyExists => "File exists (os error 17)"
  | notADirectory => "Not a directory (os error 20)"
  | isADirectory => "Is a directory (os error 21)"
  | permissionDenied => "Permission denied (os error 13)"
  | notUtf8 => "stream did not contain valid UTF-8"

/-- The time of a write: the tree's own clock, or a time that the writer states. -/
inductive WriteTime where
  | tick (n : Nat)
  | stated (seconds : Int)
  deriving DecidableEq, Repr

/-- The names on the way from the root of the tree. -/
abbrev Location := List String

def Location.path (l : Location) : String := Path.ofSegments ("" :: l)

/-- Whether a location is the other one or comes before it, name by name. -/
def Location.precedes : Location → Location → Bool
  | [], _ => true
  | _ :: _, [] => false
  | a :: l, b :: m => a < b || (a == b && Location.precedes l m)

/-- Whether two files hold the same bytes. -/
def sameContent (a b : ByteArray) : Bool := a.data = b.data

theorem sameContent_iff {a b : ByteArray} : sameContent a b = true ↔ a = b := by
  cases a
  cases b
  simp [sameContent]

/-- What stands at a location. -/
inductive FileEntry where
  | directory
  | file (content : ByteArray) (written : WriteTime)
  /-- A file that may not be read. -/
  | locked (content : ByteArray) (written : WriteTime)

namespace FileEntry

/-- The time and the size of a file, which are known without reading it. -/
def metadata? : FileEntry → Option (WriteTime × Nat)
  | directory => none
  | file content written => some (written, content.size)
  | locked content written => some (written, content.size)

/-- The content of a file that may be read. -/
def content? : FileEntry → Option ByteArray
  | file content _ => some content
  | _ => none

/-- The same file, which may be read or not. -/
def permit (readable : Bool) : FileEntry → FileEntry
  | directory => directory
  | file content written => if readable then file content written else locked content written
  | locked content written => if readable then file content written else locked content written

end FileEntry

/-- Everything below the root, the clock, and the directory in which relative paths start. -/
structure FileTree where
  entries : List (Location × FileEntry)
  clock : Nat
  workingDirectory : Location

namespace FileTree

/-- No files, seen from some working directory. -/
def emptyFrom (workingDirectory : Location) : FileTree := ⟨[], 0, workingDirectory⟩

def empty : FileTree := emptyFrom []

def at? (t : FileTree) (l : Location) : Option FileEntry :=
  if l = [] then some .directory else (t.entries.find? (·.1 = l)).map (·.2)

/-- Follows segments from a location. Whatever has a segment behind it must be a directory. -/
def follow (t : FileTree) (l : Location) : List String → Except IoError Location
  | [] => .ok l
  | s :: segs =>
    match t.at? l with
    | none => .error .notFound
    | some .directory =>
      if Path.isIdle s then t.follow l segs
      else if s = ".." then t.follow l.dropLast segs
      else if (t.at? (l ++ [s])).isSome then t.follow (l ++ [s]) segs
      else .error .notFound
    | some _ => .error .notADirectory

/-- The absolute path that a path stands for. -/
def absolute (t : FileTree) (path : String) : String := Path.join t.workingDirectory.path path

/-- The location that a path names. The empty path names nothing. -/
def locate (t : FileTree) (path : String) : Except IoError Location :=
  if path = "" then .error .notFound else t.follow [] (Path.segments (t.absolute path)).tail

def pathExists (t : FileTree) (path : String) : Bool := (t.locate path).isOk

def isDirectory (t : FileTree) (path : String) : Bool :=
  match t.locate path with
  | .ok l => match t.at? l with
    | some .directory => true
    | _ => false
  | .error _ => false

def lookup (t : FileTree) (path : String) : Except IoError FileEntry := do
  let l ← t.locate path
  match t.at? l with
  | some e => .ok e
  | none => .error .notFound

def read (t : FileTree) (path : String) : Except IoError ByteArray := do
  match ← t.lookup path with
  | .file content _ => .ok content
  | .locked .. => .error .permissionDenied
  | .directory => .error .isADirectory

/-- The content of a file as text. -/
def readText (t : FileTree) (path : String) : Except IoError String := do
  match String.fromUTF8? (← t.read path) with
  | some text => .ok text
  | none => .error .notUtf8

def put (t : FileTree) (l : Location) (e : FileEntry) : FileTree :=
  { t with entries := t.entries.filter (·.1 ≠ l) ++ [(l, e)] }

/-- Writes a file whose directory exists, at a stated time or at the next one of the clock. -/
def write (t : FileTree) (path : String) (content : ByteArray) (time : Option Int) :
    Except IoError FileTree := do
  if path = "" then throw .notFound
  let segs := (Path.segments (t.absolute path)).tail
  let dir ← t.follow [] segs.dropLast
  match t.at? dir, segs.getLast? with
  | some .directory, some name =>
    if Path.isIdle name || name == ".." then throw .isADirectory
    match t.at? (dir ++ [name]) with
    | some .directory => throw .isADirectory
    | some (.locked ..) => throw .permissionDenied
    | _ =>
      let written := (time.map WriteTime.stated).getD (.tick t.clock)
      return { t.put (dir ++ [name]) (.file content written) with clock := t.clock + 1 }
  | some .directory, none => throw .notFound
  | some _, _ => throw .notADirectory
  | none, _ => throw .notFound

def makeDirectory (t : FileTree) (path : String) : Except IoError FileTree := do
  if path = "" then throw .notFound
  let segs := (Path.trimEnd (Path.segments (t.absolute path))).tail
  let dir ← t.follow [] segs.dropLast
  match t.at? dir, segs.getLast? with
  | some .directory, some name =>
    if name == ".." then throw .alreadyExists
    else if (t.at? (dir ++ [name])).isSome then throw .alreadyExists
    else return t.put (dir ++ [name]) .directory
  | some .directory, none => throw .alreadyExists
  | some _, _ => throw .notADirectory
  | none, _ => throw .notFound

/-- Makes the directory whose components are given in reverse order, with all that is missing on
the way to it. What could be made stays even if the rest fails. -/
def makeAll (t : FileTree) : List String → FileTree × Except IoError Unit
  -- nothing is to be made above the first component of a relative path
  | [] => (t, .ok ())
  | s :: up =>
    let path := Path.ofSegments (s :: up).reverse
    -- a directory that exists already is as good as a new one
    let settle (t : FileTree) (cause : IoError) : FileTree × Except IoError Unit :=
      (t, if t.isDirectory path then .ok () else .error cause)
    match t.makeDirectory path with
    | .ok t => (t, .ok ())
    | .error .notFound =>
      -- the directory above may be what is missing
      match t.makeAll up with
      | (t, .error cause) => (t, .error cause)
      | (t, .ok ()) =>
        match t.makeDirectory path with
        | .ok t => (t, .ok ())
        | .error cause => settle t cause
    | .error cause => settle t cause

/-- Makes a directory with all that is missing on the way to it. -/
def makeDirectories (t : FileTree) (path : String) : FileTree × Except IoError Unit :=
  t.makeAll (Path.components path).reverse

/-- Removes what a path names, with everything below it. -/
def remove (t : FileTree) (path : String) : FileTree :=
  match t.locate path with
  | .error _ => t
  | .ok l => { t with entries := t.entries.filter fun e => !l.isPrefixOf e.1 }

/-- Sets whether a file may be read. Its content and the time of its last write stay. -/
def setReadable (t : FileTree) (path : String) (readable : Bool) : FileTree :=
  match t.locate path with
  | .error _ => t
  | .ok l =>
    match t.at? l with
    | none | some .directory => t
    | some e => t.put l (e.permit readable)

/-- What a walk from a location meets: what stands there, and everything below it. -/
def walkFrom (t : FileTree) (l : Location) : List (Location × FileEntry) :=
  (t.at? l).toList.map (l, ·) ++ t.entries.filter fun e => l.isPrefixOf e.1 && e.1 ≠ l

end FileTree

end AtomicCss
