import TreeEdit.Text.Line
/-!
# Rows and columns

An incremental parser is told of a change by byte offsets and by rows and
columns. A column counts bytes from the start of the row.
-/

namespace TreeEdit

/-- A place in a text: rows counted from zero, columns in bytes. -/
structure Position where
  row : Nat
  column : Nat
deriving DecidableEq, Repr

namespace Position

/-- The position right behind the text. -/
def ofText (t : Text) : Position :=
  ⟨t.count '\n', Text.size (t.reverse.takeWhile Text.inLine)⟩

/-- The position right behind `t`, when `t` starts at `p`. -/
def advance (p : Position) (t : Text) : Position :=
  if '\n' ∈ t then ⟨p.row + t.count '\n', Text.size (t.reverse.takeWhile Text.inLine)⟩
  else ⟨p.row, p.column + t.size⟩

end Position

/-- The position of byte offset `o`; `none` off a boundary. -/
def Text.positionAt? (t : Text) (o : Nat) : Option Position :=
  (t.splitAt? o).map fun p => Position.ofText p.1

theorem Text.positionAt?_size_append (x y : Text) :
    (x ++ y).positionAt? x.size = some (.ofText x) := by
  rw [positionAt?, splitAt?_size_append, Option.map_some]

end TreeEdit
