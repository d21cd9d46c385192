import TreeEdit.Engine.Motion
import TreeEdit.Proofs.Buffer
/-!
# Arithmetic in machine words

The numbers of this library have no bounds, those of a machine do. Here stands what
the arithmetic of a command is in words of 64 bits, with no answer where a result does
not fit: `Move.sum?` adds up the steps of a movement, `Span.shiftPast?` moves an offset
past a removed span, and `Edit.follow?` moves point by the growth of the text. In a text
that fits the memory they have an answer, and it is the one without bounds.
-/

namespace TreeEdit

theorem fitsSigned_iff {n : Int} :
    fitsSigned n = true ↔ -(signedLimit : Int) ≤ n ∧ n < signedLimit := by
  simp [fitsSigned]

/-! ## Movements -/

namespace Move

/-- As long as the number of steps is a signed word, so is either part of the displacement. -/
theorem fitsSigned_times (m : Motion) {k : Nat} (h : k < signedLimit) :
    fitsSigned (m.unit.times k).horizontal = true ∧
      fitsSigned (m.unit.times k).vertical = true := by
  simp only [fitsSigned_iff]
  cases m <;> simp [Motion.unit, times, previous, next, parent, child] <;> omega

/-- The steps of a movement add up. -/
theorem sum?_replicate (m : Motion) {k : Nat} (h : k < signedLimit) :
    sum? (List.replicate k m.unit) = some (m.unit.times k) := by
  induction k with
  | zero => simp [sum?]
  | succ k ih =>
    have hk : (List.replicate k m.unit).foldlM add? none = some (m.unit.times k) := ih (by omega)
    have hf := fitsSigned_times m h
    rw [sum?, List.replicate_succ', List.foldlM_append, hk]
    rw [times_succ] at hf ⊢
    have ha : add? (m.unit.times k) m.unit = some (m.unit.times k + m.unit) := by
      simp only [add?, hf.1, hf.2, Bool.and_true, if_true]
    simp [ha]

/-- The displacement of a movement is as great as the number of its steps. -/
theorem magnitude?_times (m : Motion) {k : Nat} (h : k < signedLimit) :
    (m.unit.times k).magnitude? = some k := by
  have hm : (m.unit.times k).magnitude = k := by
    cases m <;> simp [Motion.unit, times, magnitude, previous, next, parent, child]
  rw [magnitude?, hm, if_pos]
  simp only [signedLimit, wordLimit] at h ⊢
  omega

end Move

/-! ## Offsets -/

/-- Where the offset `n` goes when the bytes of the span are removed, unless it goes below zero. -/
def Span.shiftPast? (s : Span) (n : Nat) : Option Nat :=
  if s.stop ≤ n then
    if s.size ≤ n then some (n - s.size) else none
  else some (if s.start < n then s.start else n)

/-- It never does, because what is removed ends before the offset. -/
theorem Span.shiftPast?_eq (s : Span) (n : Nat) : s.shiftPast? n = some (s.shiftPast n) := by
  unfold shiftPast? shiftPast
  by_cases h : s.stop ≤ n
  · have hs : s.size ≤ n := by
      unfold size
      omega
    rw [if_pos h, if_pos h, if_pos hs]
  · rw [if_neg h, if_neg h]

namespace Edit

/-- Where a point at `p` goes. Behind the span it is moved by the growth of the text, in signed
words: point, growth and sum have to fit them, and the sum has to be an offset. -/
def follow? (e : Edit) (p : Nat) : Option Nat :=
  if e.span.stop ≤ p then
    if fitsSigned p ∧ fitsSigned e.delta ∧ fitsSigned (p + e.delta) ∧ 0 ≤ p + e.delta then
      some (p + e.delta).toNat
    else none
  else some (if e.span.start < p then e.span.start else p)

theorem follow?_eq {e : Edit} {p : Nat} (hs : e.span.start ≤ e.span.stop)
    (hp : p + e.replacement.size < signedLimit) : e.follow? p = some (e.follow p) := by
  unfold follow? follow
  by_cases h : e.span.stop ≤ p
  · have hle : e.span.size ≤ p := by
      unfold Span.size
      omega
    have hd : (p + e.delta : Int) = (p - e.span.size + e.replacement.size : Nat) := by
      unfold delta
      omega
    have hfit : fitsSigned p ∧ fitsSigned e.delta ∧ fitsSigned (p + e.delta) ∧ 0 ≤ p + e.delta := by
      rw [hd]
      simp only [fitsSigned_iff, delta]
      omega
    rw [if_pos h, if_pos h, if_pos hfit, hd, Int.toNat_natCast]
  · rw [if_neg h, if_neg h]

end Edit

/-! ## Removing a part of the text -/

namespace Buffer

/-- The span has a text, which is removed and leaves `b'`. The parser can be told of the change,
point moves in signed words, and the change is counted in a word. -/
def RemovesInWords (b : Buffer) (s : Span) (b' : Buffer) : Prop :=
  ∃ y, (delete s).perform b = (.ok y, b') ∧ ((Edit.delete s y).change? b.text).isSome = true ∧
    (Edit.delete s y).follow? b.point = some b'.point ∧ b'.revision < wordLimit

variable {b : Buffer} {x y z : Text}

theorem isSome_change? (h : b.text = x ++ y ++ z) (r : Text) :
    ((Edit.delete ⟨x.size, (x ++ y).size⟩ r).change? b.text).isSome = true := by
  rw [Edit.change?_of_site (Edit.site_eq_ok_iff.2 ⟨h, rfl, rfl⟩)]
  rfl

theorem splice_point (b : Buffer) (x y z : Text) :
    (b.splice x y [] z).point = (Edit.delete ⟨x.size, (x ++ y).size⟩ y).follow b.point := by
  unfold splice
  split
  · rename_i h
    subst h
    -- Nothing is removed, and point stays.
    simp only [Edit.follow, Edit.delete, Edit.replace, Span.size, List.append_nil, Text.size_nil]
    split
    · omega
    · rw [if_neg (by omega)]
  · rfl

theorem valid_splice (hv : b.Valid) (h : b.text = x ++ y ++ z) : (b.splice x y [] z).Valid := by
  obtain ⟨r, hr⟩ := perform_replace h []
  have ha := valid_apply hv (.replace ⟨x.size, (x ++ y).size⟩ [] y)
  rwa [hr] at ha

theorem size_splice_le (h : b.text = x ++ y ++ z) :
    (b.splice x y [] z).text.size ≤ b.text.size := by
  rw [splice_text h, h]
  simp only [Text.size_append, Text.size_nil]
  omega

theorem revision_splice_le (b : Buffer) (x y z : Text) :
    (b.splice x y [] z).revision ≤ b.revision + 1 := by
  unfold splice
  split
  · exact Nat.le_succ _
  · exact Nat.le_refl _

/-- Any part of a text that fits the memory can be removed. -/
theorem removesInWords (hv : b.Valid) (h : b.text = x ++ y ++ z) (hf : b.text.size < signedLimit)
    (hr : b.revision + 1 < wordLimit) :
    b.RemovesInWords ⟨x.size, (x ++ y).size⟩ (b.splice x y [] z) := by
  refine ⟨y, perform_delete h, isSome_change? h y, ?_,
    Nat.lt_of_le_of_lt (b.revision_splice_le x y z) hr⟩
  rw [splice_point]
  apply Edit.follow?_eq
  · simp [Edit.delete, Edit.replace]
  · have hp := Text.le_size_of_isBoundary hv
    simp only [Edit.delete, Edit.replace, Text.size_nil]
    omega

end Buffer

end TreeEdit
