import TreeEdit.Text.Blank
import TreeEdit.Text.Numeral
import TreeEdit.Toml.Quoted
/-!
# Numbers of TOML

Integers have 64 bits. A float must not be too large for the binary format of 64
bits; its value is not needed beyond that.
-/

namespace TreeEdit.Toml

/-- The digits of a number, without the underscores that may stand between two of them. -/
def digits? (isDigit : Char → Bool) (t : Text) : Option Text :=
  let groups := t.splitWhere (· == '_')
  if groups.all fun g => !g.isEmpty && g.all isDigit then some groups.flatten else none

def inBase (base : Nat) (t : Text) : Option Nat := do
  let ds ← digits? (fun c => ((hexDigit? c).any (· < base))) t
  return ds.foldl (fun v c => base * v + (hexDigit? c).getD 0) 0

/-- The sign that a number starts with, and what follows it. -/
def sign? : Text → Option Char × Text
  | '-' :: r => (some '-', r)
  | '+' :: r => (some '+', r)
  | r => (none, r)

/-- Decimal digits without needless zeros in front. -/
def wholeDigits? (t : Text) : Option Text :=
  (digits? Char.isDigit t).filter fun ds => !(ds.head? == some '0' && 1 < ds.length)

def integer? (t : Text) : Option Int := do
  let n : Int ← match t with
    | '0' :: 'x' :: r => (inBase 16 r).map Int.ofNat
    | '0' :: 'o' :: r => (inBase 8 r).map Int.ofNat
    | '0' :: 'b' :: r => (inBase 2 r).map Int.ofNat
    | t =>
      let (sign, r) := sign? t
      (wholeDigits? r).map fun ds =>
        if sign = some '-' then -(Numeral.value ds : Int) else Numeral.value ds
  if fitsSigned n then some n else none

/-! ## Floats -/

/-- The digits of a float before and behind the point, and its power of ten. -/
structure Scientific where
  whole : Text
  fraction : Text
  power : Int
deriving DecidableEq, Repr

namespace Scientific

/-- The first number that is rounded to infinity in the binary format of 64 bits. -/
def limit : Nat := 0xFFFFFFFFFFFFFC <<< 968

/-- The number of decimal digits of `limit`. -/
def limitLength : Nat := 309

/-- The number is less than `limit`: its digits before the point are fewer, or make less. -/
def isFinite (x : Scientific) : Bool :=
  let ds := (x.whole ++ x.fraction).dropWhile (· == '0')
  let places : Int := (ds.length : Int) - x.fraction.length + x.power
  if ds.isEmpty then true
  else if places = (limitLength : Int) then
    Numeral.value ((ds ++ List.replicate limitLength '0').take limitLength) < limit
  else places < (limitLength : Int)

/-- Reads a number with a fraction, a power of ten or both. -/
def ofText? (t : Text) : Option Scientific := do
  let body := (sign? t).2
  let mantissa := body.takeWhile fun c => c != 'e' && c != 'E'
  let power := body.drop mantissa.length
  let whole := mantissa.takeWhile (· != '.')
  let fraction := mantissa.drop whole.length
  guard (!(fraction.isEmpty && power.isEmpty))
  let whole ← wholeDigits? whole
  let fraction ← if fraction.isEmpty then some [] else digits? Char.isDigit fraction.tail
  if power.isEmpty then return ⟨whole, fraction, 0⟩
  else
    let (sign, r) := sign? power.tail
    let n := Numeral.value (← digits? Char.isDigit r)
    return ⟨whole, fraction, if sign = some '-' then -(n : Int) else n⟩

end Scientific

/-- A float: a finite number with a fraction, a power of ten or both, or a name. -/
def isFloat (t : Text) : Bool :=
  let body := (sign? t).2
  body == "inf".toList || body == "nan".toList || (Scientific.ofText? t).any (·.isFinite)

end TreeEdit.Toml
