import TreeEdit.Span
import TreeEdit.Text.Blank
/-!
# Lines of a text

A line is what stands between two newlines. `lineAt?` takes the text apart
around one line: `append_of_lineAt?` says that nothing is lost and that the line
holds no newline. An offset past the end counts as the end, and an offset inside
a character has no line.
-/

namespace TreeEdit

/-- A text taken apart around one of its lines. -/
structure Line where
  /-- What stands before the line: empty, or ending in a newline. -/
  before : Text
  /-- The line itself, without its newline. -/
  content : Text
  /-- What stands behind the line: empty, or starting with a newline. -/
  behind : Text
deriving DecidableEq, Repr

namespace Line

/-- Offset of the first byte of the line. -/
def start (l : Line) : Nat := l.before.size

/-- Offset of the newline that ends the line, or of the end of the text. -/
def stop (l : Line) : Nat := l.before.size + l.content.size

/-- The stop of the line, less a carriage return at its end. -/
def contentStop (l : Line) : Nat :=
  if l.content.getLast? = some '\r' then l.stop - 1 else l.stop

/-- The spaces and tabs that the line starts with. -/
def indentation (l : Line) : Text := l.content.indentation

/-- Offset of the first character that is not indentation, or the stop of the line. -/
def firstNonBlank (l : Line) : Nat := l.start + l.indentation.size

def isBlank (l : Line) : Bool := l.content.allBlank

/-- What goes when the line is removed: the line with its newline; on the last line the
newline in front of it instead; a single line without newlines alone. -/
def removal (l : Line) : Span :=
  if l.behind ≠ [] then ⟨l.start, l.stop + 1⟩
  else if 0 < l.start then ⟨l.start - 1, l.stop⟩
  else ⟨l.start, l.stop⟩

end Line

namespace Text

/-- The character does not end a line. -/
def inLine (c : Char) : Bool := c != '\n'

/-- The line around the place where `x` ends and `y` starts. -/
def lineBetween (x y : Text) : Line where
  before := (x.reverse.dropWhile inLine).reverse
  content := (x.reverse.takeWhile inLine).reverse ++ y.takeWhile inLine
  behind := y.dropWhile inLine

/-- The line that holds offset `o`; `none` inside a character. -/
def lineAt? (t : Text) (o : Nat) : Option Line :=
  (t.splitAt? (min o t.size)).map fun p => lineBetween p.1 p.2

/-- A carriage return with a newline right behind it occurs in the text. -/
def hasCrlf : Text → Bool
  | '\r' :: '\n' :: _ => true
  | _ :: t => hasCrlf t
  | [] => false

/-- The line terminator of the text: carriage return and newline if any line ends so. -/
def lineEnding (t : Text) : Text := if t.hasCrlf then ['\r', '\n'] else ['\n']

theorem append_lineBetween (x y : Text) :
    (lineBetween x y).before ++ (lineBetween x y).content ++ (lineBetween x y).behind = x ++ y := by
  have h : (x.reverse.dropWhile inLine).reverse ++ (x.reverse.takeWhile inLine).reverse = x := by
    rw [← List.reverse_append, List.takeWhile_append_dropWhile, List.reverse_reverse]
  have h' : y.takeWhile inLine ++ y.dropWhile inLine = y := List.takeWhile_append_dropWhile
  simp only [lineBetween, List.append_assoc]
  rw [h', ← List.append_assoc, h]

theorem newline_not_mem_lineBetween (x y : Text) : '\n' ∉ (lineBetween x y).content := by
  have h (z : Text) : '\n' ∉ z.takeWhile inLine := fun hm => by
    simpa [inLine] using List.all_eq_true.1 List.all_takeWhile _ hm
  simp only [lineBetween, List.mem_append, List.mem_reverse, not_or]
  exact ⟨h _, h _⟩

/-- Around a line nothing is lost, and the line holds no newline. -/
theorem append_of_lineAt? {t : Text} {o : Nat} {l : Line} (h : t.lineAt? o = some l) :
    t = l.before ++ l.content ++ l.behind ∧ '\n' ∉ l.content := by
  obtain ⟨⟨x, y⟩, hs, rfl⟩ := Option.map_eq_some_iff.1 h
  obtain ⟨rfl, -⟩ := splitAt?_eq_some_iff.1 hs
  exact ⟨(append_lineBetween x y).symm, newline_not_mem_lineBetween x y⟩

/-- The offset of a line lies between the start and the stop of the line. -/
theorem start_le_of_lineAt? {t : Text} {o : Nat} {l : Line} (h : t.lineAt? o = some l) :
    l.start ≤ min o t.size ∧ min o t.size ≤ l.stop := by
  obtain ⟨⟨x, y⟩, hs, rfl⟩ := Option.map_eq_some_iff.1 h
  obtain ⟨-, hx⟩ := splitAt?_eq_some_iff.1 hs
  have h : size (x.reverse.dropWhile inLine).reverse + size (x.reverse.takeWhile inLine).reverse
      = size x := by
    rw [← size_append, ← List.reverse_append, List.takeWhile_append_dropWhile,
      List.reverse_reverse]
  simp only [Line.start, Line.stop, lineBetween, size_append]
  omega

/-- A boundary, and every offset past the end, has a line. -/
theorem isSome_lineAt? {t : Text} {o : Nat} :
    (t.lineAt? o).isSome = t.isBoundary (min o t.size) := by
  simp [lineAt?, isBoundary]

end Text

end TreeEdit
