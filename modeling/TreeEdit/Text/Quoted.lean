import TreeEdit.Text.Basic
import TreeEdit.Text.Numbered
/-!
# Quoted texts

A text between double quotes, with the characters escaped that would not show
in print.
-/

namespace TreeEdit.Text

/-- The code point in hexadecimal, between braces. -/
def codePoint (c : Char) : Text :=
  ['\\', 'u', '\x7b'] ++ Nat.toDigits 16 c.toNat ++ ['\x7d']

/-- How a character is written inside a quoted text. -/
def quoteChar (c : Char) : Text :=
  match c with
  | '\x00' => ['\\', '0']
  | '\t' => ['\\', 't']
  | '\n' => ['\\', 'n']
  | '\r' => ['\\', 'r']
  | '"' => ['\\', '"']
  | '\\' => ['\\', '\\']
  | c => if isNumbered c then codePoint c else [c]

/-- The text between double quotes, escaped. -/
def quoted (t : Text) : Text := '"' :: t.flatMap quoteChar ++ ['"']

end TreeEdit.Text
