/-!
# Hexadecimal numbers

The digits in which escapes write the code of a character.
-/

namespace AtomicCss.Hex

/-- The digit of a number below 16, in lower case. -/
def digit (n : Nat) : Char := Nat.digitChar n

/-- The value of a digit of either case. -/
def value? (c : Char) : Option Nat :=
  if c.isDigit then some (c.toNat - '0'.toNat)
  else if 'a' ≤ c && c ≤ 'f' then some (c.toNat - 'a'.toNat + 10)
  else if 'A' ≤ c && c ≤ 'F' then some (c.toNat - 'A'.toNat + 10)
  else none

/-- The number that digits stand for, the first one being the most significant. -/
def number? (ds : List Char) : Option Nat :=
  ds.foldlM (fun n d => (value? d).map (n * 16 + ·)) 0

/-- Reading a digit gives back the number that it was written for. -/
theorem value?_digit {n : Nat} (h : n < 16) : value? (digit n) = some n := by
  have : ∀ n, n < 16 → value? (digit n) = some n := by decide
  exact this n h

end AtomicCss.Hex
