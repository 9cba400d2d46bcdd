import AtomicCss.Format.Hex

/-!
# JSON strings

A string is written between double quotes; quotes, backslashes and control characters in it are
escaped. An escape by code names one unit of UTF-16, so a character beyond the first plane takes
two of them.
-/

namespace AtomicCss.Json.Quoted

/-! ### Writing -/

def escape (c : Char) : List Char :=
  if c = '"' then ['\\', '"']
  else if c = '\\' then ['\\', '\\']
  else if c = '\x08' then ['\\', 'b']
  else if c = '\x0c' then ['\\', 'f']
  else if c = '\n' then ['\\', 'n']
  else if c = '\r' then ['\\', 'r']
  else if c = '\t' then ['\\', 't']
  else if c.toNat < 0x20 then
    ['\\', 'u', '0', '0', Hex.digit (c.toNat / 16), Hex.digit (c.toNat % 16)]
  else [c]

def write (s : List Char) : List Char := '"' :: s.flatMap escape ++ ['"']

/-! ### Reading -/

/-- The character that the letter of a short escape stands for. -/
def shortEscape? (c : Char) : Option Char :=
  if c = '"' || c = '\\' || c = '/' then some c
  else if c = 'b' then some '\x08'
  else if c = 'f' then some '\x0c'
  else if c = 'n' then some '\n'
  else if c = 'r' then some '\r'
  else if c = 't' then some '\t'
  else none

/-- What stands in a string: a character, or a unit of UTF-16 by its code. -/
inductive Piece where
  | char (c : Char)
  | unit (n : Nat)
  deriving DecidableEq, Repr

/-- A piece in front of those behind it. -/
def consPiece (p : Option Piece) (rest : Option (List Piece × List Char)) :
    Option (List Piece × List Char) :=
  match p, rest with
  | some p, some (ps, s) => some (p :: ps, s)
  | _, _ => none

/-- The pieces up to the closing quote, and what stands behind it. -/
def pieces : List Char → Option (List Piece × List Char)
  | [] => none
  | '"' :: s => some ([], s)
  | '\\' :: 'u' :: a :: b :: c :: d :: s =>
    consPiece ((Hex.number? [a, b, c, d]).map .unit) (pieces s)
  | '\\' :: c :: s => consPiece ((shortEscape? c).map .char) (pieces s)
  | c :: s => if c.toNat < 0x20 || c = '\\' then none else consPiece (some (.char c)) (pieces s)

/-- Whether a unit is the first half of a surrogate pair. -/
def isHighHalf (n : Nat) : Bool := 0xD800 ≤ n && n < 0xDC00

/-- Whether a unit is the second half of a surrogate pair. -/
def isLowHalf (n : Nat) : Bool := 0xDC00 ≤ n && n < 0xE000

def pairChar (high low : Nat) : Char :=
  Char.ofNat (0x10000 + (high - 0xD800) * 0x400 + (low - 0xDC00))

/-- The text of some pieces, unless one half of a pair stands alone. -/
def text? : List Piece → Option (List Char)
  | [] => some []
  | .char c :: ps => (text? ps).map (c :: ·)
  | .unit n :: ps =>
    if isLowHalf n then none
    else if isHighHalf n then
      match ps with
      | .unit m :: ps => if isLowHalf m then (text? ps).map (pairChar n m :: ·) else none
      | _ => none
    else (text? ps).map (Char.ofNat n :: ·)

/-- A piece can only stand in front of others that were read. -/
theorem read_of_consPiece {p : Option Piece} {rest : Option (List Piece × List Char)}
    {ps : List Piece} {s : List Char} (h : consPiece p rest = some (ps, s)) :
    ∃ qs, rest = some (qs, s) := by
  unfold consPiece at h
  split at h
  · obtain ⟨-, rfl⟩ := by simpa using h
    exact ⟨_, rfl⟩
  · cases h

/-- Reading a string leaves less than there was. -/
theorem length_of_pieces {s rest : List Char} {ps : List Piece} (h : pieces s = some (ps, rest)) :
    rest.length < s.length := by
  fun_induction pieces s generalizing ps with
  | case1 => cases h
  | case2 s => simp_all
  | case3 a b c d s ih =>
    obtain ⟨qs, hq⟩ := read_of_consPiece h
    have := ih hq
    simp only [List.length_cons]
    omega
  | case4 c s _ ih =>
    obtain ⟨qs, hq⟩ := read_of_consPiece h
    have := ih hq
    simp only [List.length_cons]
    omega
  | case5 => cases h
  | case6 c s _ _ _ _ ih =>
    obtain ⟨qs, hq⟩ := read_of_consPiece h
    have := ih hq
    simp only [List.length_cons]
    omega

end AtomicCss.Json.Quoted
