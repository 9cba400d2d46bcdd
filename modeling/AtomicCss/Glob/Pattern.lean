/-!
# Glob patterns

A pattern describes file names by text with wildcards: `?` and `*` within one component of a path,
`**` across components, classes of characters in brackets, and alternatives in braces. A backslash
takes the meaning from the character behind it.

Patterns are read character by character; what is open while reading is kept in a stack of groups.
-/

namespace AtomicCss.Glob

/-- One piece of a pattern. -/
inductive Piece where
  | literal (c : Char)
  /-- `?` -/
  | any
  /-- `*` -/
  | many
  /-- `**` in front of everything else. -/
  | anyPrefix
  /-- `**` behind everything else. -/
  | anySuffix
  /-- `**` between two components. -/
  | anyBetween
  | oneOf (negated : Bool) (ranges : List (Char × Char))
  | group (branches : List (List Piece))
  deriving Repr

/-- Why a pattern is refused. -/
inductive Fault where
  | unclosedClass
  | invalidRange (first last : Char)
  | unopenedGroup
  | unclosedGroup
  | danglingEscape
  deriving DecidableEq, Repr

def Fault.message : Fault → String
  | unclosedClass => "unclosed character class; missing ']'"
  | invalidRange first last =>
    "invalid range; '" ++ String.singleton first ++ "' > '" ++ String.singleton last ++ "'"
  | unopenedGroup =>
    "unopened alternate group; missing '\x7b' (maybe escape '\x7d' with '[\x7d]'?)"
  | unclosedGroup =>
    "unclosed alternate group; missing '\x7d' (maybe escape '\x7b' with '[\x7b]'?)"
  | danglingEscape => "dangling '\\'"

/-- A pattern that is refused. -/
structure PatternError where
  pattern : String
  fault : Fault
  deriving DecidableEq, Repr

def PatternError.message (e : PatternError) : String :=
  "error parsing glob '" ++ e.pattern ++ "': " ++ e.fault.message

/-! ### The pieces read so far -/

/-- A group that is still open: its finished branches, last one first, and the pieces that stand in
front of the group, last one first. -/
structure OpenGroup where
  branches : List (List Piece)
  front : List Piece

/-- What is read so far: the pieces of the current branch, last one first, and the open groups,
innermost one first. -/
structure Progress where
  current : List Piece
  groups : List OpenGroup

namespace Progress

def start : Progress := ⟨[], []⟩

/-- Adds a piece to the current branch. -/
def push (p : Progress) (piece : Piece) : Progress := { p with current := piece :: p.current }

/-- Puts a piece in place of the last one. -/
def replaceLast (p : Progress) (piece : Piece) : Progress :=
  { p with current := piece :: p.current.tail }

def inGroup (p : Progress) : Bool := !p.groups.isEmpty

def openGroup (p : Progress) : Progress := ⟨[], ⟨[], p.current⟩ :: p.groups⟩

/-- Starts the next branch of the innermost group. Outside of groups a comma means itself. -/
def comma (p : Progress) : Progress :=
  match p.groups with
  | [] => p.push (.literal ',')
  | g :: gs => ⟨[], { g with branches := p.current.reverse :: g.branches } :: gs⟩

def closeGroup? (p : Progress) : Option Progress :=
  match p.groups with
  | [] => none
  | g :: gs => some ⟨.group ((p.current.reverse :: g.branches).reverse) :: g.front, gs⟩

/-- Two plain stars, which is what `**` is inside of a component. -/
def twoStars (p : Progress) : Progress := (p.push .many).push .many

/-- A `**` that fills a component or the end: it takes the place of the separator in front, or
joins another `**`. -/
def recursive (p : Progress) (piece : Piece) : Progress :=
  match p.current with
  | .anyPrefix :: _ => p
  | .anySuffix :: _ => p
  | _ => p.replaceLast piece

end Progress

/-! ### Classes -/

/-- A class that is still open: its ranges, last one first, and whether a hyphen waits for the end
of a range. -/
structure OpenClass where
  negated : Bool
  ranges : List (Char × Char)
  inRange : Bool

namespace OpenClass

/-- Takes one more character of the class. -/
def add (k : OpenClass) (c : Char) : Except Fault OpenClass :=
  match k.inRange, k.ranges with
  | true, (first, _) :: rest =>
    if c < first then .error (.invalidRange first c)
    else .ok { k with ranges := (first, c) :: rest, inRange := false }
  | _, _ => .ok { k with ranges := (c, c) :: k.ranges, inRange := false }

/-- The piece for a class. A hyphen that still waits stands for itself. -/
def close (k : OpenClass) : Piece :=
  .oneOf k.negated (if k.inRange then ('-', '-') :: k.ranges else k.ranges).reverse

end OpenClass

/-! ### Reading -/

/-- What the next character belongs to. -/
inductive Mode where
  | plain
  | escaped
  /-- Directly behind the opening bracket of a class. -/
  | classStart
  /-- Before the first character of a class. -/
  | classFirst (negated : Bool)
  | inClass (k : OpenClass)
  /-- Behind one star; `before` is the character in front of it. -/
  | star (before : Option Char)
  /-- Behind two stars; `before` is the character in front of them. -/
  | twoStars (before : Option Char)

/-- A reader of patterns: what it has read, what comes next, and the last character. -/
structure Reader where
  progress : Progress
  mode : Mode
  previous : Option Char

namespace Reader

/-- The reader in front of a pattern. -/
def start : Reader := ⟨.start, .plain, none⟩

/-- Whether two stars behind `before` can fill a component: they stand behind a separator, or at
the start of a branch. -/
def startsComponent (p : Progress) (before : Option Char) : Bool :=
  before == some '/' || (p.inGroup && (before == some ',' || before == some '\x7b'))

/-- Takes a character that belongs to nothing in front of it. -/
def plain (p : Progress) (previous : Option Char) (c : Char) : Except Fault Reader :=
  if c = '*' then .ok ⟨p, .star previous, some c⟩
  else if c = '?' then .ok ⟨p.push .any, .plain, some c⟩
  else if c = '[' then .ok ⟨p, .classStart, some c⟩
  else if c = '\x7b' then .ok ⟨p.openGroup, .plain, some c⟩
  else if c = '\x7d' then
    match p.closeGroup? with
    | some p => .ok ⟨p, .plain, some c⟩
    | none => .error .unopenedGroup
  else if c = ',' then .ok ⟨p.comma, .plain, some c⟩
  else if c = '\\' then .ok ⟨p, .escaped, some c⟩
  else .ok ⟨p.push (.literal c), .plain, some c⟩

def step (r : Reader) (c : Char) : Except Fault Reader :=
  let p := r.progress
  match r.mode with
  | .plain => plain p r.previous c
  | .escaped => .ok ⟨p.push (.literal c), .plain, some c⟩
  | .classStart =>
    if c = '!' || c = '^' then .ok ⟨p, .classFirst true, some c⟩
    else .ok ⟨p, .inClass ⟨false, [(c, c)], false⟩, some c⟩
  | .classFirst negated => .ok ⟨p, .inClass ⟨negated, [(c, c)], false⟩, some c⟩
  | .inClass k =>
    -- a bracket that came first was taken above, so this one closes the class
    if c = ']' then .ok ⟨p.push k.close, .plain, some c⟩
    else if c = '-' && !k.inRange then .ok ⟨p, .inClass { k with inRange := true }, some c⟩
    else (k.add c).map fun k => ⟨p, .inClass k, some c⟩
  | .star before =>
    if c = '*' then .ok ⟨p, .twoStars before, some c⟩ else plain (p.push .many) r.previous c
  | .twoStars before =>
    -- stars that do not fill a component are worth two single ones
    if p.current.isEmpty then
      if c = '/' then .ok ⟨p.push .anyPrefix, .plain, some c⟩ else plain p.twoStars r.previous c
    else if startsComponent p before then
      if c = '/' then .ok ⟨p.recursive .anyBetween, .plain, some c⟩
      else if p.inGroup && (c = ',' || c = '\x7d') then
        plain (p.recursive .anySuffix) r.previous c
      else plain p.twoStars r.previous c
    else plain p.twoStars r.previous c

/-- The pieces of a pattern that ends here. -/
def finish (r : Reader) : Except Fault (List Piece) :=
  let close (p : Progress) : Except Fault (List Piece) :=
    if p.inGroup then .error .unclosedGroup else .ok p.current.reverse
  let p := r.progress
  match r.mode with
  | .plain => close p
  | .escaped => .error .danglingEscape
  | .star _ => close (p.push .many)
  | .twoStars before =>
    if p.current.isEmpty then close (p.push .anyPrefix)
    else if startsComponent p before then close (p.recursive .anySuffix)
    else close p.twoStars
  | _ => .error .unclosedClass

end Reader

def parse (pattern : String) : Except PatternError (List Piece) :=
  ((pattern.toList.foldlM Reader.step Reader.start).bind Reader.finish).mapError (⟨pattern, ·⟩)

end AtomicCss.Glob
