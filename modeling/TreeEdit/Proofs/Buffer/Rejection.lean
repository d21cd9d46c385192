import TreeEdit.Proofs.Buffer.Apply
/-!
# Spans that cannot be removed

A span is a part of the text if it is a range of it and both its ends are boundaries.
`Obstacle` says what stands in the way otherwise, and an edit on the span is rejected for
just that, whatever it wants to put there and whatever it expects (`apply_of_obstacle`).

To remove a span is such an edit, but it looks for the text of the span first, and there
it does not ask why it finds none: it calls every span an invalid range.
`delete_rejects_iff` says that this is the wrong answer exactly where the range is valid
and an end falls inside a character.
-/

namespace TreeEdit

/-- The span is a part of the text. -/
structure Span.Selects (s : Span) (t : Text) : Prop where
  start_le_stop : s.start ≤ s.stop
  stop_le_size : s.stop ≤ t.size
  start : t.isBoundary s.start = true
  stop : t.isBoundary s.stop = true

/-- Why the span is no part of the text: its range comes first, then its start, then its stop. -/
inductive Span.Obstacle (s : Span) (t : Text) : EditError → Prop
  | range : s.stop < s.start ∨ t.size < s.stop → Obstacle s t (.invalidRange s t.size)
  | start : s.start ≤ s.stop → s.stop ≤ t.size → t.isBoundary s.start = false →
      Obstacle s t (.notBoundary s.start)
  | stop : s.start ≤ s.stop → s.stop ≤ t.size → t.isBoundary s.start = true →
      t.isBoundary s.stop = false → Obstacle s t (.notBoundary s.stop)

namespace Span

variable {s : Span} {t : Text} {err : EditError}

theorem selects_or_obstacle (s : Span) (t : Text) :
    s.Selects t ∨ (¬ s.Selects t ∧ ∃ err, s.Obstacle t err) := by
  by_cases hr : s.stop < s.start ∨ t.size < s.stop
  · refine .inr ⟨fun h => ?_, _, .range hr⟩
    obtain ⟨hle, hsize, -, -⟩ := h
    omega
  · have hle : s.start ≤ s.stop := by omega
    have hsize : s.stop ≤ t.size := by omega
    cases hs : t.isBoundary s.start with
    | false => exact .inr ⟨fun h => by simp [h.start] at hs, _, .start hle hsize hs⟩
    | true =>
      cases ht : t.isBoundary s.stop with
      | false => exact .inr ⟨fun h => by simp [h.stop] at ht, _, .stop hle hsize hs ht⟩
      | true => exact .inl ⟨hle, hsize, hs, ht⟩

/-- An edit on the span has no place in the text, and the obstacle is the reason. -/
theorem Obstacle.site (h : s.Obstacle t err) {e : Edit} (he : e.span = s) :
    e.site t = .error err := by
  subst he
  cases h with
  | range hr =>
    refine Edit.site_of_not_inRange fun hin => ?_
    unfold Edit.InRange at hin
    omega
  | start hle hsize hs =>
    exact Edit.site_of_offBoundary ⟨hle, hsize⟩ (by simp [Edit.offBoundary?, hs])
  | stop hle hsize hs ht =>
    exact Edit.site_of_offBoundary ⟨hle, hsize⟩ (by simp [Edit.offBoundary?, hs, ht])

theorem Obstacle.slice? (h : s.Obstacle t err) : t.slice? s.start s.stop = none :=
  Edit.slice?_of_no_site (h.site (e := .delete s []) rfl)

/-- Only the first obstacle is an invalid range. -/
theorem Obstacle.eq_invalidRange_iff (h : s.Obstacle t err) :
    err = .invalidRange s t.size ↔ s.stop < s.start ∨ t.size < s.stop := by
  cases h with
  | range hr => exact iff_of_true rfl hr
  | start hle hsize hs => exact iff_of_false (by simp) (by omega)
  | stop hle hsize hs ht => exact iff_of_false (by simp) (by omega)

end Span

namespace Buffer

variable {b : Buffer} {s : Span} {err : EditError}

theorem apply_of_obstacle (h : s.Obstacle b.text err) {e : Edit} (he : e.span = s) :
    (apply e).perform b = (.error (.rejected err), b) := apply_of_no_site (h.site he)

/-- The removal of a part of the text succeeds: it returns the part and leaves the text on both
sides of it, however long the part is. The removal of any other span changes nothing and fails with
an invalid range. This is what every edit on the span fails with, unless the span is a valid range:
then an end of it falls inside a character, and an edit says so. -/
theorem delete_rejects_iff (b : Buffer) (s : Span) :
    (s.Selects b.text ∧ ∃ x y z b', b.text = x ++ y ++ z ∧ s = ⟨x.size, (x ++ y).size⟩ ∧
      (delete s).perform b = (.ok y, b') ∧ b'.text = x ++ z) ∨
    (¬ s.Selects b.text ∧ ∃ err, s.Obstacle b.text err ∧
      (∀ e : Edit, e.span = s → (apply e).perform b = (.error (.rejected err), b)) ∧
      (delete s).perform b = (.error (.rejected (.invalidRange s b.text.size)), b) ∧
      ((delete s).perform b = (.error (.rejected err), b) ↔
        ¬ (s.start ≤ s.stop ∧ s.stop ≤ b.text.size))) := by
  rcases s.selects_or_obstacle b.text with h | ⟨hn, err, h⟩
  · obtain ⟨x, y, z, ht, hx, hy⟩ := Text.exists_parts h.start h.stop h.start_le_stop
    obtain rfl : s = ⟨x.size, (x ++ y).size⟩ := by rw [hx, hy]
    refine .inl ⟨h, x, y, z, _, ht, rfl, perform_delete ht, ?_⟩
    rw [splice_text ht, List.append_nil]
  · have hd := perform_delete_of_none h.slice?
    refine .inr ⟨hn, err, h, fun e he => apply_of_obstacle h he, hd, ?_⟩
    have hr : ¬ (s.start ≤ s.stop ∧ s.stop ≤ b.text.size) ↔
        s.stop < s.start ∨ b.text.size < s.stop := by omega
    rw [hd, hr, ← h.eq_invalidRange_iff]
    simp [eq_comm]

/-- A removal that stops in the middle of a letter of two bytes is said to have an invalid range,
but its range is one of the text, and any edit on it is told of the letter. -/
theorem delete_misreports :
    (delete ⟨0, 1⟩).perform (.ofText ['é'] .json)
      = (.error (.rejected (.invalidRange ⟨0, 1⟩ 2)), .ofText ['é'] .json) ∧
    ∀ e : Edit, e.span = ⟨0, 1⟩ → (apply e).perform (.ofText ['é'] .json)
      = (.error (.rejected (.notBoundary 1)), .ofText ['é'] .json) :=
  ⟨rfl, fun _ he => apply_of_obstacle (.stop (by decide) (by decide) (by decide) (by decide)) he⟩

end Buffer

end TreeEdit
