import AtomicCss.Text

/-!
# Paths

A path is a text whose segments are separated by slashes. Its components are the segments that
mean something: empty segments and single dots do not, except for a dot at the start of a relative
path. Two paths with equal components are equal as paths.
-/

namespace AtomicCss.Path

/-- The segments of a path; an absolute path starts with an empty one. -/
def segments (p : String) : List String :=
  (Text.fields (· == '/') p.toList).map String.ofList

def ofSegments (segs : List String) : String :=
  if segs = [""] then "/" else "/".intercalate segs

/-- Whether a path starts at the root of the file system. -/
def isAbsolute (p : String) : Bool := p.toList.head? == some '/'

/-- Whether a segment says nothing about the place of a file. -/
def isIdle (seg : String) : Bool := seg == "" || seg == "."

/-- The components of a path. An absolute path has an empty component in front. -/
def components (p : String) : List String :=
  match segments p with
  | [] => []
  | s :: segs => (if s = "" && !isAbsolute p then [] else [s]) ++ segs.filter (!isIdle ·)

/-- A path from the place that another one names. -/
def join (base p : String) : String :=
  if isAbsolute p then p
  else if base = "" || base.toList.getLast? == some '/' then base ++ p
  else base ++ "/" ++ p

/-- Segments without the idle ones at the end; the first one always stays. -/
def trimEnd : List String → List String
  | [] => []
  | s :: segs => s :: (segs.reverse.dropWhile isIdle).reverse

/-- The path of the directory that a path lies in. -/
def parent? (p : String) : Option String :=
  match trimEnd (segments p) with
  | [] => none
  | [s] => if s = "" then none else some ""
  | segs => some (ofSegments (trimEnd segs.dropLast))

/-- The last component of a path, if it is a name. -/
def fileName? (p : String) : Option String :=
  match (components p).getLast? with
  | none => none
  | some s => if isIdle s || s == ".." then none else some s

/-- The segments behind some names, the idle ones in between being passed over. -/
def segmentsBehind : (names segs : List String) → Option (List String)
  | [], segs => some segs
  | _ :: _, [] => none
  | n :: names, s :: segs =>
    if isIdle s then segmentsBehind (n :: names) segs
    else if s = n then segmentsBehind names segs
    else none
termination_by names segs => (segs.length, names.length)

/-- The part of an absolute path below the directory with the given names. -/
def below? (names : List String) (p : String) : Option String :=
  if isAbsolute p then
    (segmentsBehind names (segments p)).map fun segs =>
      "/".intercalate (((segs.dropWhile isIdle).reverse.dropWhile isIdle).reverse)
  else none

end AtomicCss.Path
