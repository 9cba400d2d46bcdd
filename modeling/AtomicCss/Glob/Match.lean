import AtomicCss.Glob.Pattern

/-!
# Matching globs

A piece of a pattern may consume several beginnings of a path; `rests` lists what is left of the
path in each case. Paths are compared byte by byte, so `?` and a class stand for one byte each,
and a character beyond ASCII in a class stands for any of its bytes.
-/

namespace AtomicCss.Glob

/-- The byte that separates the components of a path. -/
def separator : UInt8 := 47

def bytesOf (c : Char) : List UInt8 := (String.singleton c).toUTF8.toList

/-- What is left after the text `lit`, if the path starts with it. -/
def afterLiteral : (lit path : List UInt8) → Option (List UInt8)
  | [], path => some path
  | b :: lit, x :: path => if b = x then afterLiteral lit path else none
  | _ :: _, [] => none

/-- The path and every end of it that starts behind one of its bytes. -/
def tails : List UInt8 → List (List UInt8)
  | [] => [[]]
  | x :: path => (x :: path) :: tails path

/-- What can be left after some bytes of one component. -/
def tailsInComponent : List UInt8 → List (List UInt8)
  | [] => [[]]
  | x :: path => (x :: path) :: (if x = separator then [] else tailsInComponent path)

def afterSeparators : List UInt8 → List (List UInt8)
  | [] => []
  | x :: path => if x = separator then path :: afterSeparators path else afterSeparators path

/-- Whether a byte belongs to a range of characters. The ends of the range count by their bytes,
which are joined where the first end stops and the last end starts. -/
def inRange (range : Char × Char) (b : UInt8) : Bool :=
  let first := bytesOf range.1
  if range.1 = range.2 then first.contains b
  else
    let last := bytesOf range.2
    first.dropLast.contains b || last.tail.contains b ||
      (first.getLast?.any (· ≤ b) && last.head?.any (b ≤ ·))

mutual

/-- Whether a piece has no text: a group all of whose branches are void. -/
def Piece.isVoid : Piece → Bool
  | .group branches => Piece.allVoid branches
  | _ => false

/-- Whether all branches of a group are void. -/
def Piece.allVoid : List (List Piece) → Bool
  | [] => true
  | b :: bs => Piece.branchVoid b && Piece.allVoid bs

/-- Whether a branch is empty, or has void pieces only. -/
def Piece.branchVoid : List Piece → Bool
  | [] => true
  | p :: ps => p.isVoid && Piece.branchVoid ps

end

/-- Drops repetitions, so that the number of rests stays below the length of the path. -/
def distinct (rests : List (List UInt8)) : List (List UInt8) := rests.eraseDups

mutual

/-- What a piece can leave of a path. -/
def Piece.rests (path : List UInt8) : Piece → List (List UInt8)
  | .literal c => (afterLiteral (bytesOf c) path).toList
  | .any =>
    match path with
    | x :: path => if x = separator then [] else [path]
    | [] => []
  | .many => tailsInComponent path
  | .anyPrefix => path :: afterSeparators path
  | .anySuffix =>
    match path with
    | x :: path => if x = separator then tails path else []
    | [] => []
  | .anyBetween =>
    match path with
    | x :: path => if x = separator then path :: afterSeparators path else []
    | [] => []
  | .oneOf negated ranges =>
    match path with
    | x :: path => if (ranges.any (inRange · x)) != negated then [path] else []
    | [] => []
  | .group branches =>
    if Piece.allVoid branches then [path] else Piece.restsOfGroup path branches

/-- What the branches of a group can leave of a path; void branches do not count. -/
def Piece.restsOfGroup (path : List UInt8) : List (List Piece) → List (List UInt8)
  | [] => []
  | b :: bs =>
    (if Piece.branchVoid b then [] else Piece.restsOfBranch [path] b) ++ Piece.restsOfGroup path bs

/-- What the pieces of a branch can leave, one after the other. -/
def Piece.restsOfBranch (paths : List (List UInt8)) : List Piece → List (List UInt8)
  | [] => paths
  | p :: ps => Piece.restsOfBranch (distinct (paths.flatMap fun path => p.rests path)) ps

end

/-- Whether a pattern describes a path as a whole. Two stars alone describe every path. -/
def accepts (pattern : List Piece) (path : String) : Bool :=
  match pattern with
  | [.anyPrefix] => true
  | _ => (Piece.restsOfBranch [path.toUTF8.toList] pattern).contains []

end AtomicCss.Glob
