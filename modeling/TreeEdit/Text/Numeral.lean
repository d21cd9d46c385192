import TreeEdit.Text.Basic
/-!
# Decimal numerals of 64 bits

Counts and offsets are written in decimal. Reading allows one `+` in front and
leading zeros, and refuses a value that does not fit 64 bits.
-/

namespace TreeEdit

/-- The first number that does not fit 64 bits. -/
def wordLimit : Nat := 0x10000000000000000

/-- The first number that does not fit 64 bits with a sign. -/
def signedLimit : Nat := 0x8000000000000000

/-- The integer fits 64 bits with a sign. -/
def fitsSigned (n : Int) : Bool := -(signedLimit : Int) ≤ n && n < (signedLimit : Int)

namespace Numeral

/-- The decimal digits of `n`, without leading zeros. -/
def print (n : Nat) : Text := Nat.toDigits 10 n

/-- The digits of an integer, with a `-` in front of a negative one. -/
def printInt (n : Int) : Text := if n < 0 then '-' :: print n.natAbs else print n.natAbs

/-- The value of a row of decimal digits, read from the left. -/
def value (t : Text) : Nat := t.foldl (fun n c => 10 * n + (c.toNat - '0'.toNat)) 0

/-- Reads one or more decimal digits. -/
def digits? (t : Text) : Option Nat :=
  if t ≠ [] ∧ t.all Char.isDigit then some (value t) else none

/-- Reads a number of 64 bits: an optional `+`, then decimal digits. -/
def word? (t : Text) : Option Nat :=
  (digits? (if t.head? = some '+' then t.tail else t)).filter (· < wordLimit)

end Numeral

end TreeEdit
