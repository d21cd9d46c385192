import TreeEdit.Text.Numeral
/-!
# Dates and times of TOML

A date, a time of day, or a date with a time and maybe an offset from universal
time. Only whether a text is one matters.
-/

namespace TreeEdit.Toml

/-- Exactly `n` decimal digits, and what follows them. -/
def fixed? (n : Nat) (t : Text) : Option (Nat × Text) :=
  if (t.take n).length = n ∧ (t.take n).all Char.isDigit then
    some (Numeral.value (t.take n), t.drop n)
  else none

/-- What follows one of the characters. -/
def one? (cs : List Char) : Text → Option Text
  | c :: r => if cs.contains c then some r else none
  | [] => none

/-- The days of a month, with a leap day in February of a leap year. -/
def daysIn (year month : Nat) : Nat :=
  if month = 2 then (if year % 4 = 0 ∧ (year % 100 ≠ 0 ∨ year % 400 = 0) then 29 else 28)
  else if [4, 6, 9, 11].contains month then 30
  else 31

def date? (t : Text) : Option Text := do
  let (year, r) ← fixed? 4 t
  let r ← one? ['-'] r
  let (month, r) ← fixed? 2 r
  let r ← one? ['-'] r
  let (day, r) ← fixed? 2 r
  if 1 ≤ month ∧ month ≤ 12 ∧ 1 ≤ day ∧ day ≤ daysIn year month then some r else none

/-- What follows a time of day. The seconds and their fraction may be left out. -/
def time? (t : Text) : Option Text := do
  let (hour, r) ← fixed? 2 t
  let r ← one? [':'] r
  let (minute, r) ← fixed? 2 r
  guard (hour ≤ 23 ∧ minute ≤ 59)
  match one? [':'] r with
  | none => some r
  | some r =>
    let (second, r) ← fixed? 2 r
    guard (second ≤ 60)
    match one? ['.'] r with
    | none => some r
    | some r => if (r.head?).any Char.isDigit then some (r.dropWhile Char.isDigit) else none

def zone? (t : Text) : Option Text :=
  match one? ['Z', 'z'] t with
  | some r => some r
  | none => do
    let r ← one? ['+', '-'] t
    let (hour, r) ← fixed? 2 r
    let r ← one? [':'] r
    let (minute, r) ← fixed? 2 r
    if hour ≤ 23 ∧ minute ≤ 59 then some r else none

/-- A date, a time, or a date with a time and maybe an offset. -/
def isDatetime (t : Text) : Bool :=
  match date? t with
  | none => time? t == some []
  | some [] => true
  | some r =>
    match (one? ['T', 't', ' '] r).bind time? with
    | none => false
    | some [] => true
    | some r => zone? r == some []

end TreeEdit.Toml
