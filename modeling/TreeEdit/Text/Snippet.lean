import TreeEdit.Text.Line
/-!
# Snippets

A text of several lines is pasted with its lines re-based: the lines behind the
first one lose the indentation that they share and get another one instead.
Their indentation relative to each other stays.
-/

namespace TreeEdit.Text

/-- The number of spaces and tabs that every line starts with, blank lines apart. -/
def commonIndent (lines : List Text) : Nat :=
  (((lines.filter fun l => !l.allBlank).map fun l => l.indentation.length).min?).getD 0

/-- A line behind the first one with `indent` for its first `base` characters; a blank line
becomes empty. -/
def rebaseLine (indent : Text) (base : Nat) (line : Text) : Text :=
  if line.allBlank then [] else indent ++ line.drop base

/-- The text with the lines behind the first one re-based onto `indent`. -/
def rebase (t indent : Text) : Text :=
  match t.pieces with
  | [] => []
  | first :: rest => join ['\n'] (first :: rest.map (rebaseLine indent (commonIndent rest)))

/-- `n` copies of the text with `sep` between them. -/
def copies (t sep : Text) (n : Nat) : Text := join sep (List.replicate n t)

/-- The span reaches over several lines, or covers its line from the first character that is
no indentation to the end of its content; `none` if it starts inside a character. -/
def isBlock? (t : Text) (s : Span) : Option Bool :=
  (t.lineAt? s.start).map fun line =>
    (t.slice? s.start s.stop).any (·.contains '\n')
      || (s.start == line.firstNonBlank && s.stop == line.contentStop)

end TreeEdit.Text
