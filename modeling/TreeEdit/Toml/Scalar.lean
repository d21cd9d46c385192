import TreeEdit.Toml.Date
import TreeEdit.Toml.Number
import TreeEdit.Toml.Token
import TreeEdit.Toml.Value
/-!
# Values without brackets

A value without brackets is a string or a word: a number, a truth value or a
date. A word may be cut into several tokens, because it may have points in it,
and one space may stand between a date and a time.
-/

namespace TreeEdit.Toml

/-- The value that the characters of a word write. -/
def word? (w : Text) : Option Value :=
  if w = "true".toList then some (.boolean true)
  else if w = "false".toList then some (.boolean false)
  else match integer? w with
    | some n => some (.integer n)
    | none =>
      if isFloat w then some (.float w)
      else if isDatetime w then some (.datetime w)
      else none

def Token.string? (t : Token) : Option Text :=
  match Toml.string? t.text with
  | some (s, []) => some s
  | _ => none

/-- The tokens of the word that `t` starts, behind `t`. -/
def wordTokens (t : Token) (ts : List Token) : List Token :=
  let run := ts.takeWhile Token.isWord
  let isDate := date? (t.text ++ run.flatMap Token.text) == some []
  match ts.drop run.length with
  | space :: next :: rest =>
    if isDate ∧ space.text = [' '] ∧ next.kind = .bare ∧ (fixed? 2 next.text).isSome then
      run ++ space :: next :: rest.takeWhile Token.isWord
    else run
  | _ => run

/-- The name that a part of a key writes. -/
def Token.name? (t : Token) : Option Text :=
  if t.kind = .bare then
    if t.text.all fun c => c.isAlphanum || c == '_' || c == '-' then some t.text else none
  else match lineString? t.text with
    | some (s, []) => some s
    | _ => none

end TreeEdit.Toml
