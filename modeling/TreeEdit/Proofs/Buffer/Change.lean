import TreeEdit.Parser
import TreeEdit.Proofs.Buffer.Apply
import TreeEdit.Proofs.Text.Block
/-!
# Changes as a parser is told of them

A position counts the lines before an offset and the bytes from the start of its line, and
`Position.IsAt` says so without counting backwards. To advance the position at the end of a
text over another one gives the position at the end of both (`advance_ofText`), wherever
the newlines of the two are.

A parser is told of an edit by three positions, two of the old text and one of the new
text. The last one is not looked up but advanced from the first, and `positions_exact` says
that all three are right.
-/

namespace TreeEdit

namespace Position

variable {p : Position} {t u w : Text} {o : Nat}

/-- The position is that of offset `o` in the text: the text before the offset is `row` lines with
their newlines and `column` bytes of the next line. -/
def IsAt (p : Position) (t : Text) (o : Nat) : Prop :=
  ∃ u w v, t = u ++ w ++ v ∧ (u ++ w).size = o ∧ Text.AtLineStart u ∧ '\n' ∉ w ∧
    p = ⟨u.count '\n', w.size⟩

/-- Behind whole lines, `w` gives the column. -/
theorem ofText_of_lineStart (hu : Text.AtLineStart u) (hw : '\n' ∉ w) :
    ofText (u ++ w) = ⟨u.count '\n', w.size⟩ := by
  have hl := congrArg Line.content (Text.lineBetween_of_lineStart hu hw [])
  simp only [Text.lineBetween, List.takeWhile_nil, List.append_nil] at hl
  rw [ofText, List.count_append, List.count_eq_zero_of_not_mem hw, Nat.add_zero,
    ← Text.size_reverse (List.takeWhile _ _), hl]

theorem positionAt?_eq_some_iff : t.positionAt? o = some p ↔ p.IsAt t o := by
  constructor
  · intro h
    obtain ⟨⟨x, v⟩, hs, rfl⟩ := Option.map_eq_some_iff.1 h
    obtain ⟨rfl, rfl⟩ := Text.splitAt?_eq_some_iff.1 hs
    obtain ⟨u, w, rfl, hu, hw⟩ := Text.exists_lineStart x
    exact ⟨u, w, v, rfl, rfl, hu, hw, ofText_of_lineStart hu hw⟩
  · rintro ⟨u, w, v, rfl, rfl, hu, hw, rfl⟩
    rw [Text.positionAt?_size_append, ofText_of_lineStart hu hw]

/-- To advance over a text leads to the end of that text. -/
theorem advance_ofText (x y : Text) : (ofText x).advance y = ofText (x ++ y) := by
  unfold advance
  split
  · -- The last newline is one of `y`, so the column is that of `y` alone.
    rename_i hy
    obtain ⟨u, w, rfl, hu, hw⟩ := Text.exists_lineStart y
    have hxu : Text.AtLineStart (x ++ u) := by
      rcases hu with rfl | ⟨v, rfl⟩
      · exact absurd hy hw
      · exact .inr ⟨x ++ v, by simp⟩
    have hend := ofText_of_lineStart hu hw
    rw [ofText, Position.mk.injEq] at hend
    rw [hend.1, hend.2, ← List.append_assoc, ofText_of_lineStart hxu hw, List.count_append]
    rfl
  · -- There is no newline in `y`, so the line goes on.
    rename_i hy
    obtain ⟨u, w, rfl, hu, hw⟩ := Text.exists_lineStart x
    rw [List.append_assoc, ofText_of_lineStart hu hw,
      ofText_of_lineStart hu (by simp [hw, hy]), Text.size_append]

end Position

namespace Change

/-- The change is that of the edit, and its positions are those of its offsets: the start and the
old stop in the old text, and the new stop in the new text. -/
structure Locates (c : Change) (e : Edit) (old new : Text) : Prop where
  span : e.span = ⟨c.start, c.oldStop⟩
  newStop : c.newStop = c.start + e.replacement.size
  startPosition : c.startPosition.IsAt old c.start
  oldStopPosition : c.oldStopPosition.IsAt old c.oldStop
  newStopPosition : c.newStopPosition.IsAt new c.newStop

theorem locates_of_site {e : Edit} {t x y z : Text} (h : e.site t = .ok (x, y, z)) :
    ∃ c, e.change? t = some c ∧ c.Locates e t (x ++ e.replacement ++ z) := by
  obtain ⟨rfl, hx, hy⟩ := Edit.site_eq_ok_iff.1 h
  refine ⟨_, Edit.change?_of_site h, rfl, rfl, ?_, ?_, ?_⟩
  · refine Position.positionAt?_eq_some_iff.1 ?_
    dsimp only
    rw [← hx, List.append_assoc, Text.positionAt?_size_append]
  · refine Position.positionAt?_eq_some_iff.1 ?_
    dsimp only
    rw [← hy, Text.positionAt?_size_append]
  · refine Position.positionAt?_eq_some_iff.1 ?_
    dsimp only
    rw [← hx, ← Text.size_append, Text.positionAt?_size_append, Position.advance_ofText]

/-- The position that is looked up is the one that the offset is at. The position at the end of a
text stays where it is when another text follows, and advanced over that text it is the position at
the end of both. So the change of every edit that has a place in a text has the right positions, in
the old text and in the new one, and this holds of every edit that is applied to a buffer. -/
theorem positions_exact :
    (∀ (t : Text) o p, t.positionAt? o = some p ↔ p.IsAt t o) ∧
    (∀ x y : Text, ∃ p, x.positionAt? x.size = some p ∧ (x ++ y).positionAt? x.size = some p ∧
      (x ++ y).positionAt? (x ++ y).size = some (p.advance y)) ∧
    (∀ (e : Edit) (t x y z : Text), e.site t = .ok (x, y, z) →
      ∃ c, e.change? t = some c ∧ c.Locates e t (x ++ e.replacement ++ z)) ∧
    ∀ (b : Buffer) e b', b.Takes e b' →
      ∃ c, e.change? b.text = some c ∧ c.Locates e b.text b'.text := by
  have hend (x : Text) : x.positionAt? x.size = some (.ofText x) := by
    simpa using Text.positionAt?_size_append x []
  refine ⟨fun t o p => Position.positionAt?_eq_some_iff, fun x y => ?_,
    fun e t x y z => locates_of_site, fun b e b' h => ?_⟩
  · exact ⟨_, hend x, Text.positionAt?_size_append x y, by rw [hend, Position.advance_ofText]⟩
  · obtain ⟨x, y, z, ht, hs, -, -, rfl⟩ := Buffer.takes_iff.1 h
    exact locates_of_site (Edit.site_eq_ok_iff.2 ⟨ht, by rw [hs], by rw [hs]⟩)

/-- In a text of two lines, the first letter of the second one is replaced by two lines. -/
def breaking : Edit := .replace ⟨3, 4⟩ ['x', '\n', 'c', 'é'] ['a']

/-- The replacement stops in the third line, behind three bytes of it. -/
theorem positions_exact_breaking :
    ∃ b' c, (Buffer.ofText ['é', '\n', 'a', 'b'] .json).Takes breaking b' ∧
      breaking.change? ['é', '\n', 'a', 'b'] = some c ∧ c.newStop = 8 ∧
      c.startPosition = ⟨1, 0⟩ ∧ c.oldStopPosition = ⟨1, 1⟩ ∧ c.newStopPosition = ⟨2, 3⟩ ∧
      b'.text = ['é', '\n', 'x', '\n', 'c', 'é', 'b'] ∧ Position.IsAt ⟨2, 3⟩ b'.text 8 := by
  obtain ⟨-, -, -, hbuffer⟩ := positions_exact
  obtain ⟨c, hc, hl⟩ := hbuffer (.ofText ['é', '\n', 'a', 'b'] .json) breaking _ rfl
  obtain rfl := Option.some.inj hc
  exact ⟨_, _, rfl, hc, rfl, rfl, rfl, rfl, rfl, hl.newStopPosition⟩

end Change

end TreeEdit
