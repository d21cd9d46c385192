import TreeEdit.Text.Blank
/-!
# Strings of TOML

The readers of strings start behind the opening quotes and return what is left
behind the closing ones.
-/

namespace TreeEdit.Toml

def isSpace (c : Char) : Bool := c == ' ' || c == '\t'

/-- A control character other than the tab. It stands in no string and no comment. -/
def isControl (c : Char) : Bool := (c.toNat < 0x20 && c != '\t') || c.toNat == 0x7F

/-- What follows the newline that the text starts with. -/
def newline? : Text → Option Text
  | '\n' :: r => some r
  | '\r' :: '\n' :: r => some r
  | _ => none

def hexDigit? (c : Char) : Option Nat :=
  if c.isDigit then some (c.toNat - '0'.toNat)
  else if 'a' ≤ c ∧ c ≤ 'f' then some (c.toNat - 'a'.toNat + 10)
  else if 'A' ≤ c ∧ c ≤ 'F' then some (c.toNat - 'A'.toNat + 10)
  else none

/-- The character with the code point that the first `n` digits write. -/
def codePoint? (n : Nat) (t : Text) : Option Char := do
  let ds ← (t.take n).mapM hexDigit?
  let v := ds.foldl (fun v d => 16 * v + d) 0
  if ds.length = n ∧ v.isValidChar then some (Char.ofNat v) else none

/-- The character that an escape stands for, and its number of characters behind the
backslash. -/
def escape? : Text → Option (Char × Nat)
  | 'b' :: _ => some ('\x08', 1)
  | 't' :: _ => some ('\t', 1)
  | 'n' :: _ => some ('\n', 1)
  | 'f' :: _ => some ('\x0c', 1)
  | 'r' :: _ => some ('\r', 1)
  | 'e' :: _ => some ('\x1b', 1)
  | '"' :: _ => some ('"', 1)
  | '\\' :: _ => some ('\\', 1)
  | 'x' :: r => (codePoint? 2 r).map (·, 3)
  | 'u' :: r => (codePoint? 4 r).map (·, 5)
  | 'U' :: r => (codePoint? 8 r).map (·, 9)
  | _ => none

/-- A string between double quotes on one line. -/
def basicString (t : Text) : Option (Text × Text) :=
  match t with
  | [] => none
  | c :: r =>
    if c = '"' then some ([], r)
    else if c = '\\' then
      match escape? r with
      | none => none
      | some (d, n) => (basicString (r.drop n)).map fun p => (d :: p.1, p.2)
    else if isControl c then none
    else (basicString r).map fun p => (c :: p.1, p.2)
termination_by t.length
decreasing_by all_goals simp only [List.length_cons, List.length_drop]; omega

/-- A string between single quotes on one line. -/
def literalString (t : Text) : Option (Text × Text) :=
  match t with
  | [] => none
  | c :: r =>
    if c = '\x27' then some ([], r)
    else if isControl c then none
    else (literalString r).map fun p => (c :: p.1, p.2)

/-- The number of quotes that the text starts with. -/
def quoteRun (q : Char) (t : Text) : Nat := (t.takeWhile (· == q)).length

/-- The number of blanks and whole line breaks that the text starts with, in characters. -/
def blankRun : Text → Nat
  | '\r' :: '\n' :: r => blankRun r + 2
  | c :: r => if isSpace c || c == '\n' then blankRun r + 1 else 0
  | [] => 0

/-- A string of several lines, between three quotes `q`. Up to two quotes may stand right before
the closing ones, and line breaks are kept as they are written. With `escapes`, a backslash
escapes, and one at the end of a line takes the line break and the blanks behind it away. -/
def multilineString (q : Char) (escapes : Bool) (t : Text) : Option (Text × Text) :=
  match t with
  | [] => none
  | c :: r =>
    if c = q then
      let n := quoteRun q r + 1
      if 3 ≤ n then
        if n ≤ 5 then some (List.replicate (n - 3) q, r.drop (n - 1)) else none
      else
        (multilineString q escapes (r.drop (n - 1))).map fun p => (List.replicate n q ++ p.1, p.2)
    else if c = '\\' ∧ escapes then
      if (newline? (r.dropWhile isSpace)).isSome then
        multilineString q escapes (r.drop (blankRun r))
      else
        match escape? r with
        | none => none
        | some (d, n) => (multilineString q escapes (r.drop n)).map fun p => (d :: p.1, p.2)
    else if c = '\r' then
      if r.head? = some '\n' then
        (multilineString q escapes (r.drop 1)).map fun p => ('\r' :: '\n' :: p.1, p.2)
      else none
    else if isControl c && c != '\n' then none
    else (multilineString q escapes r).map fun p => (c :: p.1, p.2)
termination_by t.length
decreasing_by all_goals simp only [List.length_cons, List.length_drop]; omega

/-- The text without the newline that it starts with. -/
def afterNewline (t : Text) : Text := (newline? t).getD t

/-- A string in one of the four ways to write it; `none` also if the text starts with no quote. -/
def string? : Text → Option (Text × Text)
  | '"' :: '"' :: '"' :: r => multilineString '"' true (afterNewline r)
  | '"' :: r => basicString r
  | '\x27' :: '\x27' :: '\x27' :: r => multilineString '\x27' false (afterNewline r)
  | '\x27' :: r => literalString r
  | _ => none

/-- A string on one line, in one of the two ways to write it. -/
def lineString? : Text → Option (Text × Text)
  | '"' :: '"' :: '"' :: _ => none
  | '\x27' :: '\x27' :: '\x27' :: _ => none
  | t => string? t

/-! ## Where strings end

The end of a string is found before its contents are looked at, so that a wrong
string still has one. -/

/-- The length of a string between double quotes, behind the opening one: up to the closing
quote, or else up to the end of the line. -/
def basicLength (escaped : Bool) : Text → Nat
  | [] => 0
  | c :: r =>
    if escaped ∧ (c = '\\' ∨ c = '"') then basicLength false r + 1
    else if c = '"' then 1
    else if c = '\n' then 0
    else basicLength (c == '\\') r + 1

/-- The length of a string between single quotes, behind the opening one. -/
def literalLength : Text → Nat
  | [] => 0
  | c :: r => if c = '\x27' then 1 else if c = '\n' then 0 else literalLength r + 1

/-- The length of a string of several lines, behind the opening quotes: up to the first three
quotes, and up to two more, or else up to the end of the text. -/
def multilineLength (q : Char) (escapes escaped : Bool) : Text → Nat
  | [] => 0
  | c :: r =>
    if escaped ∧ (c = '\\' ∨ c = '"') then multilineLength q escapes false r + 1
    else if c = q ∧ 2 ≤ quoteRun q r then min 5 (quoteRun q r + 1)
    else multilineLength q escapes (escapes && c == '\\') r + 1

/-- The length of a string behind its first quote `q`. -/
def stringLength (q : Char) (r : Text) : Nat :=
  if 2 ≤ quoteRun q r then 2 + multilineLength q (q == '"') false (r.drop 2)
  else if q = '"' then basicLength false r
  else literalLength r

end TreeEdit.Toml
