/-!
# Numerals

Decimal numerals as JSON writes them. A numeral is kept as written; what has to be known of it is
whether a double can hold it.
-/

namespace AtomicCss.Numeral

/-- A numeral in its parts. -/
structure Parts where
  /-- The digits in front of the point. -/
  whole : List Nat
  /-- The digits behind the point. -/
  fraction : List Nat
  exponent : Int
  deriving DecidableEq, Repr

def digit (c : Char) : Nat := c.toNat - '0'.toNat

/-- The digits in front of a text, and what is left. -/
def digits (s : List Char) : List Nat × List Char :=
  ((s.takeWhile Char.isDigit).map digit, s.dropWhile Char.isDigit)

def natural (ds : List Nat) : Nat := ds.foldl (fun n d => n * 10 + d) 0

/-- The exponent that is the whole of a text, the text being what stands behind the `e`. -/
def exponent? (s : List Char) : Option Int :=
  let (negative, s) :=
    match s with
    | '-' :: s => (true, s)
    | '+' :: s => (false, s)
    | _ => (false, s)
  match digits s with
  | ([], _) | (_, _ :: _) => none
  | (ds, []) => some (if negative then -(natural ds : Int) else natural ds)

/-- The parts behind the digits in front of the point. -/
def behindWhole (whole fraction : List Nat) : List Char → Option Parts
  | [] => some ⟨whole, fraction, 0⟩
  | c :: s => if c = 'e' || c = 'E' then (exponent? s).map (⟨whole, fraction, ·⟩) else none

/-- The parts of a numeral: a sign, digits without a leading zero, and optionally a fraction and
an exponent. -/
def parts? (s : List Char) : Option Parts :=
  let s := if s.head? = some '-' then s.tail else s
  match digits s with
  | ([], _) => none
  | (0 :: _ :: _, _) => none
  | (whole, '.' :: s) =>
    match digits s with
    | ([], _) => none
    | (fraction, s) => behindWhole whole fraction s
  | (whole, s) => behindWhole whole [] s

/-- Takes digits behind `n` as long as the number stays within 64 bits; also counts them. -/
def absorb (n : Nat) : List Nat → Nat × Nat
  | [] => (n, 0)
  | d :: ds =>
    if n * 10 + d < Nat.pow 2 64 then
      let (m, taken) := absorb (n * 10 + d) ds
      (m, taken + 1)
    else (n, 0)

/-- The number rounded to 53 binary digits, a half to the even neighbour. -/
def round53 (n : Nat) : Nat :=
  let unit := Nat.pow 2 (n.log2 - 52)
  let q := n / unit
  let r := n % unit
  if unit < 2 * r || (2 * r == unit && q % 2 == 1) then (q + 1) * unit else q * unit

/-- From here on, a number is rounded to infinity. -/
def infinity : Nat := Nat.pow 2 1024 - Nat.pow 2 970

/-- Whether a double can hold a numeral: its leading digits, taken as a double, times a power of
ten, taken as a double, must stay finite. -/
def Parts.isFinite (p : Parts) : Bool :=
  let (n, taken) := absorb 0 p.whole
  let (n, places) := absorb n p.fraction
  let scale := (p.whole.length - taken : Nat) - (places : Int) + p.exponent
  n == 0 || scale < 0 || (scale ≤ 308 && round53 n * round53 (Nat.pow 10 scale.toNat) < infinity)

def isNumeral (s : List Char) : Bool := (parts? s).isSome

/-- Whether a text is a numeral that a double can hold. -/
def fits (s : List Char) : Bool := (parts? s).any Parts.isFinite

end AtomicCss.Numeral
