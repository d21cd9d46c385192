import TreeEdit.Edit
import TreeEdit.Text.Position
import TreeEdit.Tree.Basic
/-!
# Parsers

Syntax trees come from a parser outside of this library. It answers for each
revision of a text, and may reuse what it knew of the revision before, so two
revisions with one text need not have one tree. What it is told of an edit is a
`Change`.
-/

namespace TreeEdit

/-- The syntax tree of each revision of a text. -/
abbrev Parser := Nat → Text → Tree

/-- An edit in the words of an incremental parser: offsets and positions, the old and the new. -/
structure Change where
  start : Nat
  oldStop : Nat
  newStop : Nat
  startPosition : Position
  oldStopPosition : Position
  newStopPosition : Position
deriving DecidableEq, Repr

/-- The change that an edit makes to a text in which it has a place. -/
def Edit.change? (e : Edit) (t : Text) : Option Change := do
  let start ← t.positionAt? e.span.start
  let stop ← t.positionAt? e.span.stop
  return { start := e.span.start
           oldStop := e.span.stop
           newStop := e.span.start + e.replacement.size
           startPosition := start
           oldStopPosition := stop
           newStopPosition := start.advance e.replacement }

/-- An edit with a place in the text makes a change there. -/
theorem Edit.change?_of_site {e : Edit} {t x y z : Text} (h : e.site t = .ok (x, y, z)) :
    e.change? t = some ⟨e.span.start, e.span.stop, e.span.start + e.replacement.size, .ofText x,
      .ofText (x ++ y), (Position.ofText x).advance e.replacement⟩ := by
  obtain ⟨rfl, hx, hy⟩ := site_eq_ok_iff.1 h
  have hs := Text.positionAt?_size_append x (y ++ z)
  have ht := Text.positionAt?_size_append (x ++ y) z
  rw [← List.append_assoc, hx] at hs
  rw [hy] at ht
  rw [change?, hs, ht]
  rfl

end TreeEdit
