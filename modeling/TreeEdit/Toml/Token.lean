import TreeEdit.Toml.Quoted
/-!
# Tokens of TOML

A document is cut into tokens before anything is made of them. Every text has
tokens, and together they are the text (`flatMap_text_scan`).
-/

namespace TreeEdit.Toml

/-- What a token is. -/
inductive TokenKind where
  | dot
  | equals
  | comma
  | openBracket
  | closeBracket
  | openBrace
  | closeBrace
  | blank
  | newline
  | comment
  /-- A string in one of the four ways to write it. -/
  | string
  /-- A run of other characters. -/
  | bare
deriving DecidableEq, Repr

structure Token where
  kind : TokenKind
  text : Text
deriving DecidableEq, Repr

namespace Token

/-- The character ends a run of bare characters. -/
def isDelimiter (c : Char) : Bool := ".=,[]\x7b\x7d \t#\r\n\"\x27".toList.contains c

/-- The kind of the token that starts with `c`, and the number of its further characters in the
text `r` that follows. -/
def head (c : Char) (r : Text) : TokenKind × Nat :=
  match c with
  | '.' => (.dot, 0)
  | '=' => (.equals, 0)
  | ',' => (.comma, 0)
  | '[' => (.openBracket, 0)
  | ']' => (.closeBracket, 0)
  | '\x7b' => (.openBrace, 0)
  | '\x7d' => (.closeBrace, 0)
  | '\n' => (.newline, 0)
  | '\r' => (.newline, if r.head? = some '\n' then 1 else 0)
  | '#' => (.comment, (r.takeWhile fun d => d != '\r' && d != '\n').length)
  | '"' => (.string, stringLength '"' r)
  | '\x27' => (.string, stringLength '\x27' r)
  | c =>
    if isSpace c then (.blank, (r.takeWhile isSpace).length)
    else (.bare, (r.takeWhile fun d => !isDelimiter d).length)

def scan (t : Text) : List Token :=
  match t with
  | [] => []
  | c :: r =>
    let (kind, n) := head c r
    ⟨kind, c :: r.take n⟩ :: scan (r.drop n)
termination_by t.length
decreasing_by simp only [List.length_cons, List.length_drop]; omega

/-- Nothing is lost: the tokens are the text. -/
theorem flatMap_text_scan (t : Text) : (scan t).flatMap text = t := by
  fun_induction scan t with
  | case1 => rfl
  | case2 c r kind n _ ih => simp [ih]

/-- A line ends in a newline, and a comment has no control characters. -/
def isSound (t : Token) : Bool :=
  match t.kind with
  | .newline => t.text != ['\r']
  | .comment => !t.text.any isControl
  | _ => true

/-- The token can be a part of a key. -/
def isPart (t : Token) : Bool := t.kind == .string || t.kind == .bare

/-- The token can be a part of a number, a truth value or a date. -/
def isWord (t : Token) : Bool := t.kind == .bare || t.kind == .dot

end Token

end TreeEdit.Toml
