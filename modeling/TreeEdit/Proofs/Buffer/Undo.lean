import TreeEdit.Proofs.Buffer.Apply
/-!
# Edits can be undone

The edit that undoes another one puts back the text that was replaced, and expects to find
the replacement. It is applied wherever the other one was, and restores the text: what it
expects is what stands there, be it compared letter by letter or by its digest.

Point is restored as well, unless the first edit moved it to the start of its span, or left
it there in front of nothing (`follow_undo_iff`).
-/

namespace TreeEdit

namespace Edit

/-- The edit that puts `old` back where `e` has replaced it. -/
def undo (e : Edit) (old : Text) : Edit :=
  replace ⟨e.span.start, e.span.start + e.replacement.size⟩ old e.replacement

variable {e : Edit} {old : Text} {p : Nat}

/-- Point is where it was exactly if it stood before the span, at its stop or behind it, or at its
start with something inserted there. -/
theorem follow_undo_iff (hs : e.span.stop = e.span.start + old.size) :
    (e.undo old).follow (e.follow p) = p ↔ p < e.span.start ∨ e.span.stop ≤ p ∨
      p = e.span.start ∧ e.replacement ≠ [] := by
  have hstart : (e.undo old).span.start = e.span.start := rfl
  have hstop : (e.undo old).span.stop = e.span.start + e.replacement.size := rfl
  have hnew : (e.undo old).replacement.size = old.size := rfl
  have hempty : e.replacement ≠ [] ↔ 0 < e.replacement.size := by
    rw [Ne, ← Text.size_eq_zero_iff]
    omega
  rw [hempty]
  rcases Nat.lt_or_ge p e.span.stop with hlt | hge
  · rcases Nat.lt_or_ge e.span.start p with hin | hle
    · -- From the inside of the span point went to its start, and there is no way back.
      rw [follow_of_inside hin hlt]
      by_cases hn : e.replacement.size = 0
      · rw [follow_of_stop_le (by omega), Span.size]
        omega
      · rw [follow_of_before (by omega) (by omega)]
        omega
    · -- Before the span point has not moved, and the way back is the same if it is still before.
      rw [follow_of_before hle hlt]
      by_cases hb : p < e.span.start + e.replacement.size
      · rw [follow_of_before (by omega) (by omega)]
        omega
      · rw [follow_of_stop_le (by omega), Span.size]
        omega
  · rw [follow_of_stop_le hge, Span.size, follow_of_stop_le (by omega), Span.size]
    omega

end Edit

namespace Buffer

variable {b b' : Buffer} {e : Edit}

/-- The buffer `b''` is `b` with an edit made and undone again. -/
structure Restores (e : Edit) (b b'' : Buffer) : Prop where
  text : b''.text = b.text
  language : b''.language = b.language
  /-- Undoing is a change like any other. -/
  revision : b''.revision = b.revision + 2
  point : b''.point = b.point ↔ b.point < e.span.start ∨ e.span.stop ≤ b.point ∨
    b.point = e.span.start ∧ e.replacement ≠ []

theorem takes_undo (h : b.Takes e b') : ∃ old b'',
    b.text.slice? e.span.start e.span.stop = some old ∧ b'.Takes (e.undo old) b'' ∧
    Restores e b b'' := by
  obtain ⟨x, y, z, ht, hs, hne, -, rfl⟩ := takes_iff.1 h
  refine ⟨y, _, ?_, takes_iff.2 ⟨x, e.replacement, z, rfl, ?_, Ne.symm hne,
    Verification.accepts_ofText _, rfl⟩, ht.symm, rfl, rfl, ?_⟩
  · rw [hs]
    exact Text.slice?_eq_some_iff.2 ⟨x, z, ht, rfl, rfl⟩
  · simp [Edit.undo, Edit.replace, hs]
  · exact Edit.follow_undo_iff (by simp [hs])

theorem insert_of_delete {s : Span} {removed : Text}
    (h : (delete s).perform b = (.ok removed, b')) :
    ∃ r b'', (insert s.start removed).perform b' = (.ok r, b'') ∧ b''.text = b.text := by
  cases hr : b.text.slice? s.start s.stop with
  | none =>
    rw [perform_delete_of_none hr] at h
    simp at h
  | some y =>
    obtain ⟨x, z, ht, hx, hy⟩ := Text.slice?_eq_some_iff.1 hr
    obtain rfl : s = ⟨x.size, (x ++ y).size⟩ := by rw [hx, hy]
    rw [perform_delete ht] at h
    obtain ⟨hy, rfl⟩ := Prod.mk.inj h
    obtain rfl := Except.ok.inj hy
    have ht' : (b.splice x y [] z).text = x ++ z := by rw [splice_text ht, List.append_nil]
    obtain ⟨r, hr⟩ := perform_insert ht' y
    refine ⟨r, _, hr, ?_⟩
    rw [splice_text (by simpa using ht'), ht]

/-- Every edit that is applied can be undone: the edit that puts the replaced text back is applied
too, and then the text is what it was. Point is what it was unless it stood inside the span, or at
the start of a span that was removed without replacement. In particular a text that was deleted can
be inserted again. -/
theorem edits_undone (b : Buffer) :
    (∀ e b', b.Takes e b' → ∃ old b'', b.text.slice? e.span.start e.span.stop = some old ∧
      b'.Takes (e.undo old) b'' ∧ Restores e b b'') ∧
    ∀ s removed b', (delete s).perform b = (.ok removed, b') →
      ∃ r b'', (insert s.start removed).perform b' = (.ok r, b'') ∧ b''.text = b.text :=
  ⟨fun _ _ => takes_undo, fun _ _ _ => insert_of_delete⟩

/-- A text with an accent, and point before its last letter. -/
def accented : Buffer := ⟨['é', 'b'], 2, 0, .json⟩

/-- A text that is too long to be compared letter by letter. -/
def longText : Text := .replicate 1100 'x'

/-- Replaces the last letter by the long text. -/
def lengthening : Edit := .replace ⟨2, 3⟩ longText ['b']

/-- The long text is verified by its digest when it is taken out again. Point stood at the start of
the span and is there again. The accent is deleted and inserted again. -/
theorem edits_undone_accented :
    (∃ b' b'', accented.Takes lengthening b' ∧ b'.text = ['é'] ++ longText ∧
      (lengthening.undo ['b']).expected = .digest longText.digest ∧
      b'.Takes (lengthening.undo ['b']) b'' ∧ b''.text = ['é', 'b'] ∧ b''.point = 2) ∧
    ∃ b' r b'', (delete ⟨0, 2⟩).perform accented = (.ok ['é'], b') ∧ b'.text = ['b'] ∧
      (insert 0 ['é']).perform b' = (.ok r, b'') ∧ b''.text = ['é', 'b'] := by
  obtain ⟨hundo, hinsert⟩ := edits_undone accented
  have hlong : Verification.literalLimit < longText.size := by decide +kernel
  have hdigest : (lengthening.undo ['b']).expected = .digest longText.digest := by
    simp only [Edit.undo, Edit.replace, lengthening, Verification.ofText]
    exact if_pos hlong
  have hne : ∀ t : Text, t.size ≤ 1 → t ≠ longText := by
    rintro t ht rfl
    exact absurd (Nat.lt_of_lt_of_le hlong ht) (by decide)
  constructor
  · have ht : accented.Takes lengthening ⟨['é'] ++ longText ++ [], 2, 1, .json⟩ :=
      takes_iff.2 ⟨['é'], ['b'], [], rfl, rfl, hne _ (by decide), rfl, rfl⟩
    obtain ⟨old, b'', hold, hu, hr⟩ := hundo _ _ ht
    obtain rfl : ['b'] = old := Option.some.inj hold
    exact ⟨_, b'', ht, List.append_nil _, hdigest, hu, hr.text,
      hr.point.2 (.inr (.inr ⟨rfl, (hne [] (by decide)).symm⟩))⟩
  · obtain ⟨r, b'', hi, ht⟩ := hinsert ⟨0, 2⟩ ['é'] _ rfl
    exact ⟨_, r, b'', rfl, rfl, hi, ht⟩

end Buffer

end TreeEdit
