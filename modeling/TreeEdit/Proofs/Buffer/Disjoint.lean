import TreeEdit.Proofs.Buffer.Apply
/-!
# Edits of separate spans commute

Two edits whose spans do not touch can be made in either order. If the one further on in
the text is made last, its span has moved by as much as the other edit has changed the size
of the text (`Edit.shift`). Either way leads to the same buffer: the text is replaced at both
places, and point goes to the same offset wherever it stood (`follow_comm`).
-/

namespace TreeEdit

namespace Edit

/-- The same edit `d` bytes further on in the text, or further back if `d` is negative. -/
def shift (e : Edit) (d : Int) : Edit :=
  { e with span := ⟨(e.span.start + d).toNat, (e.span.stop + d).toNat⟩ }

/-- The span of the first edit stops before the span of the second one starts. -/
structure Before (e₁ e₂ : Edit) : Prop where
  first : e₁.span.start ≤ e₁.span.stop
  apart : e₁.span.stop < e₂.span.start
  second : e₂.span.start ≤ e₂.span.stop

variable {e₁ e₂ : Edit}

/-- An edit that is moved past an earlier one is not moved over the start of the text. -/
theorem Before.span_shift (h : e₁.Before e₂) :
    ((e₂.shift e₁.delta).span.start : Int) = e₂.span.start + e₁.delta ∧
    ((e₂.shift e₁.delta).span.stop : Int) = e₂.span.stop + e₁.delta := by
  obtain ⟨h₁, ha, h₂⟩ := h
  simp only [shift, delta, Span.size]
  omega

/-- Point gets to the same place in either order. -/
theorem Before.follow_comm (h : e₁.Before e₂) (p : Nat) :
    e₁.follow (e₂.follow p) = (e₂.shift e₁.delta).follow (e₁.follow p) := by
  obtain ⟨hstart, hstop⟩ := h.span_shift
  have hnew : (e₂.shift e₁.delta).replacement = e₂.replacement := rfl
  obtain ⟨h₁, ha, h₂⟩ := h
  have hdelta : e₁.delta = (e₁.replacement.size : Int) - (e₁.span.stop - e₁.span.start : Nat) := rfl
  rcases Nat.lt_or_ge p e₁.span.stop with hlt | hge
  · -- Point stands before the stop of the first span, so it is far from the second one.
    rw [follow_of_before (e := e₂) (by omega) (by omega)]
    rcases Nat.lt_or_ge e₁.span.start p with hin | hle
    · rw [follow_of_inside hin hlt, follow_of_before (by omega) (by omega)]
    · rw [follow_of_before hle hlt, follow_of_before (by omega) (by omega)]
  · -- From here on the first edit moves point by a fixed number of bytes.
    rw [follow_of_stop_le hge]
    rcases Nat.lt_or_ge p e₂.span.stop with hlt | hge₂
    · rcases Nat.lt_or_ge e₂.span.start p with hin | hle
      · rw [follow_of_inside hin hlt, follow_of_stop_le (by omega), follow_of_inside]
        all_goals simp only [Span.size]; omega
      · rw [follow_of_before hle hlt, follow_of_stop_le hge, follow_of_before]
        all_goals simp only [Span.size]; omega
    · rw [follow_of_stop_le hge₂, follow_of_stop_le, follow_of_stop_le, hnew]
      all_goals simp only [Span.size]; omega

/-- Spans that touch are another matter: an insertion right behind a deleted letter leaves point
before the letter alone, but pushes it on once the letter is gone. -/
example :
    let e₁ := delete ⟨0, 1⟩ ['a']
    let e₂ := insert 1 ['x']
    e₁.follow (e₂.follow 0) = 0 ∧ (e₂.shift e₁.delta).follow (e₁.follow 0) = 1 := by decide

end Edit

namespace Buffer

variable {b b₁ b₂ : Buffer} {e₁ e₂ : Edit}

/-- Where an edit is applied, its span is a range. -/
theorem Takes.start_le_stop (h : b.Takes e₁ b₁) : e₁.span.start ≤ e₁.span.stop := by
  obtain ⟨x, y, z, -, hs, -⟩ := takes_iff.1 h
  simp [hs]

/-- Two edits that would each be applied, the second one behind the first and not touching it, are
applied in either order, and both orders leave the same buffer. After the first edit the second one
is made where its span has moved to. -/
theorem separate_edits_commute (h₁ : b.Takes e₁ b₁) (h₂ : b.Takes e₂ b₂)
    (h : e₁.span.stop < e₂.span.start) :
    (((e₂.shift e₁.delta).span.start : Int) = e₂.span.start + e₁.delta ∧
      ((e₂.shift e₁.delta).span.stop : Int) = e₂.span.stop + e₁.delta) ∧
    ∃ b', b₂.Takes e₁ b' ∧ b₁.Takes (e₂.shift e₁.delta) b' := by
  have hb : e₁.Before e₂ := ⟨h₁.start_le_stop, h, h₂.start_le_stop⟩
  refine ⟨hb.span_shift, ?_⟩
  obtain ⟨x, y, z₁, ht₁, hs₁, hne₁, hv₁, rfl⟩ := takes_iff.1 h₁
  obtain ⟨x₂, y', z, ht₂, hs₂, hne₂, hv₂, rfl⟩ := takes_iff.1 h₂
  -- The second span lies in what stands behind the first one, so the text is in five parts.
  have ht : x ++ y ++ z₁ = x₂ ++ (y' ++ z) := by rw [← ht₁, ht₂, List.append_assoc]
  have hle : (x ++ y).size ≤ x₂.size := by
    rw [hs₁, hs₂] at h
    exact Nat.le_of_lt h
  obtain ⟨m, rfl, rfl⟩ := Text.append_of_size_le ht hle
  have hshift : (e₂.shift e₁.delta).span =
      ⟨(x ++ e₁.replacement ++ m).size, (x ++ e₁.replacement ++ m ++ y').size⟩ := by
    simp only [Edit.shift, Edit.delta, hs₁, hs₂, Span.size, Text.size_append, Span.mk.injEq]
    omega
  refine ⟨{ b with
      text := x ++ e₁.replacement ++ m ++ e₂.replacement ++ z
      point := e₁.follow (e₂.follow b.point)
      revision := b.revision + 2 }, ?_, ?_⟩
  · exact takes_iff.2 ⟨x, y, m ++ e₂.replacement ++ z, by simp, hs₁, hne₁, hv₁, by simp⟩
  · refine takes_iff.2 ⟨x ++ e₁.replacement ++ m, y', z, by simp, hshift, hne₂, hv₂, ?_⟩
    rw [hb.follow_comm]
    rfl

/-- A text with point inside its last word. -/
def worded : Buffer := ⟨['é', ' ', 'b', 'c'], 4, 0, .json⟩

/-- Deletes the first word. -/
def shortening : Edit := .delete ⟨0, 2⟩ ['é']

/-- Replaces the last word by one of more bytes. -/
def rewording : Edit := .replace ⟨3, 5⟩ ['日', '本'] ['b', 'c']

/-- Point ends at the start of the new word in either order. -/
theorem separate_edits_commute_worded :
    shortening.span.stop < rewording.span.start ∧ shortening.delta = -2 ∧
    ∃ b₁ b₂ b', worded.Takes shortening b₁ ∧ worded.Takes rewording b₂ ∧
      b₂.Takes shortening b' ∧ b₁.Takes (rewording.shift (-2)) b' ∧
      b' = ⟨[' ', '日', '本'], 1, 2, .json⟩ := by
  have h₁ : ∃ b₁, worded.Takes shortening b₁ := ⟨_, rfl⟩
  have h₂ : worded.Takes rewording ⟨['é', ' ', '日', '本'], 3, 1, .json⟩ := rfl
  have h : shortening.span.stop < rewording.span.start := by decide
  obtain ⟨b₁, h₁⟩ := h₁
  obtain ⟨-, b', hb₂, hb₁⟩ := separate_edits_commute h₁ h₂ h
  exact ⟨h, rfl, b₁, _, b', h₁, h₂, hb₂, hb₁, (Prod.mk.inj hb₂).2.symm⟩

end Buffer

end TreeEdit
