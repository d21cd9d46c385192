import TreeEdit.Proofs.Buffer.Lines
import TreeEdit.Text.Snippet
/-!
# Blocks

A part of a text is a block if it reaches over several lines, or fills its line: it is the
first thing on the line but for indentation (`LeadsLine`), and nothing comes behind it
before the end of the line (`EndsLine`). A carriage return in front of the newline belongs
to the end of the line.

What is asked of a part is almost this, but a carriage return counts as the end of a line
also where the text ends without a newline. `isBlock_iff` says that this makes the only
difference.
-/

namespace TreeEdit

namespace Text

variable {u w x y z : Text}

/-! ## The line of a place -/

/-- Every text ends in a part of a line. -/
theorem exists_lineStart (x : Text) : ∃ u w, x = u ++ w ∧ AtLineStart u ∧ '\n' ∉ w := by
  obtain ⟨w, hx, hw⟩ := exists_before x []
  exact ⟨_, w, hx, (delimits_lineBetween x []).before, hw⟩

/-- The part of a line that a text ends in is determined by the text. -/
theorem lineStart_unique {u' w' : Text} (h : u ++ w = u' ++ w') (hu : AtLineStart u)
    (hw : '\n' ∉ w) (hu' : AtLineStart u') (hw' : '\n' ∉ w') : w = w' := by
  have hl := lineBetween_of_lineStart hu hw []
  rw [h, lineBetween_of_lineStart hu' hw' []] at hl
  simpa using (Line.mk.inj hl).2.1.symm

/-! ## The first thing on a line -/

/-- Between `x` and `z`, the text `y` is the first thing on its line, and it stays on that line. -/
structure LeadsLine (x y z : Text) : Prop where
  /-- Only spaces and tabs stand before it. -/
  indent : ∃ u w, x = u ++ w ∧ AtLineStart u ∧ ∀ c ∈ w, isIndent c = true
  /-- It does not start on one. -/
  solid : ∀ c ∈ (y ++ z).head?, isIndent c = false
  newline_not_mem : '\n' ∉ y

theorem newline_not_mem_of_isIndent (h : ∀ c ∈ w, isIndent c = true) : '\n' ∉ w := fun hm => by
  simpa [isIndent] using h _ hm

/-- The indentation of a text is a beginning of it that is made of spaces and tabs, with none right
behind. -/
theorem size_indentation_eq_iff (w v : Text) : (w ++ v).indentation.size = w.size ↔
    (∀ c ∈ w, isIndent c = true) ∧ ∀ c ∈ v.head?, isIndent c = false := by
  induction w with
  | nil =>
    cases v with
    | nil => simp [indentation]
    | cons c v =>
      have hc := c.utf8Size_pos
      cases hi : isIndent c with
      | false => simp [indentation, hi]
      | true =>
        refine iff_of_false ?_ (by simp [hi])
        rw [List.nil_append, indentation, List.takeWhile_cons_of_pos hi, size_cons, size_nil]
        omega
  | cons d w ih =>
    have hd := d.utf8Size_pos
    cases hi : isIndent d with
    | false =>
      refine iff_of_false ?_ (by simp [hi])
      rw [List.cons_append, indentation, List.takeWhile_cons_of_neg (by simp [hi]), size_cons,
        size_nil]
      omega
    | true =>
      rw [List.cons_append, indentation, List.takeWhile_cons_of_pos hi, ← indentation, size_cons,
        size_cons, Nat.add_left_cancel_iff, ih, List.forall_mem_cons, and_iff_right hi]

/-- A line starts with its indentation, and `y` is the first thing on it if it comes right
behind. -/
theorem firstNonBlank_eq_iff (hy : '\n' ∉ y) :
    x.size = (lineBetween x (y ++ z)).firstNonBlank ↔ LeadsLine x y z := by
  obtain ⟨u, w, rfl, hu, hw⟩ := exists_lineStart x
  have hi : (lineBetween (u ++ w) (y ++ z)).indentation = indentation (w ++ (y ++ z)) := by
    rw [lineBetween_of_lineStart hu hw, Line.indentation,
      ← List.takeWhile_append_of_pos (inLine_of_not_mem hw), indentation_takeWhile_inLine]
  rw [Line.firstNonBlank, hi, Line.start, lineBetween_of_lineStart hu hw, size_append,
    Nat.add_left_cancel_iff, eq_comm, size_indentation_eq_iff]
  constructor
  · rintro ⟨hwi, hs⟩
    exact ⟨⟨u, w, rfl, hu, hwi⟩, hs, hy⟩
  · rintro ⟨⟨u', w', hx, hu', hwi⟩, hs, -⟩
    obtain rfl := lineStart_unique hx hu hw hu' (newline_not_mem_of_isIndent hwi)
    exact ⟨hwi, hs⟩

/-! ## The end of a line -/

/-- Behind `y` comes the end of its line: the text has ended, or there is a newline, or a carriage
return with a newline, and the carriage return is not a part of `y`. -/
def EndsLine (y z : Text) : Prop :=
  z = [] ∨ (∃ v, z = '\n' :: v ∧ y.getLast? ≠ some '\r') ∨ ∃ v, z = '\r' :: '\n' :: v

/-- The text ends at `y` with a carriage return, which is the end of `y` or comes right behind. -/
def BareReturn (y z : Text) : Prop := z = ['\r'] ∨ z = [] ∧ y.getLast? = some '\r'

/-- Of a line that goes on with `r` behind `y`, a carriage return at the end apart, `y` is all. -/
def AllButReturn (y r : Text) : Prop := r = ['\r'] ∨ r = [] ∧ y.getLast? ≠ some '\r'

theorem size_dropReturn_eq_iff (m r : Text) :
    m.size = size (dropReturn (m ++ r)) ↔ AllButReturn m r := by
  unfold AllButReturn
  have hr : Char.utf8Size '\r' = 1 := rfl
  rcases List.eq_nil_or_concat r with rfl | ⟨v, c, rfl⟩
  · rw [List.append_nil, dropReturn]
    split
    · rename_i hl
      obtain ⟨m, rfl⟩ := List.getLast?_eq_some_iff.1 hl
      simp [hr]
    · rename_i hl
      simp [hl]
  · rw [List.concat_eq_append, ← List.append_assoc, dropReturn, List.getLast?_concat]
    split
    · rename_i hl
      obtain rfl := Option.some.inj hl
      simp [← size_eq_zero_iff (t := v)]
    · rename_i hl
      have hc := c.utf8Size_pos
      have hne : v ++ [c] ≠ ['\r'] := fun he => hl (by simpa using congrArg List.getLast? he)
      refine iff_of_false ?_ (by simp [hne])
      simp only [size_append, size_cons]
      omega

end Text

/-- The content of a line stops where the line without its carriage return does. -/
theorem Line.contentStop_eq (l : Line) :
    l.contentStop = l.start + l.content.dropReturn.size := by
  have hr : Char.utf8Size '\r' = 1 := rfl
  rw [contentStop, Text.dropReturn]
  split
  · rename_i hl
    obtain ⟨m, hm⟩ := List.getLast?_eq_some_iff.1 hl
    rw [stop, start, hm, List.dropLast_concat, Text.size_append, Text.size_cons, Text.size_nil, hr]
    omega
  · rfl

namespace Text

variable {x y z : Text}

/-- The content of the line of `y` stops with `y` if `y` is all of it, a carriage return at the end
apart. -/
theorem contentStop_eq_iff (h : LeadsLine x y z) :
    (x ++ y).size = (lineBetween x (y ++ z)).contentStop ↔ AllButReturn y (z.takeWhile inLine) := by
  obtain ⟨⟨u, w, rfl, hu, hwi⟩, -, hy⟩ := h
  -- The indentation has no carriage return, so one at the end of the two is one of `y`.
  have hlast : (w ++ y).getLast? = some '\r' ↔ y.getLast? = some '\r' := by
    rcases List.eq_nil_or_concat y with rfl | ⟨y, c, rfl⟩
    · rw [List.append_nil]
      refine iff_of_false (fun hr => ?_) (by simp)
      simpa [isIndent] using hwi _ (List.mem_of_getLast? hr)
    · simp
  rw [Line.contentStop_eq, Line.start,
    lineBetween_of_lineStart hu (newline_not_mem_of_isIndent hwi),
    List.takeWhile_append_of_pos (inLine_of_not_mem hy), List.append_assoc, size_append,
    Nat.add_left_cancel_iff, ← List.append_assoc, size_dropReturn_eq_iff, AllButReturn, ne_eq,
    hlast, ← ne_eq, ← AllButReturn]

/-- Where a newline ends the line, `z` is what is left of it behind `y`. -/
theorem endsLine_newline (y : Text) (hz : '\n' ∉ z) (v : Text) :
    EndsLine y (z ++ '\n' :: v) ↔ AllButReturn y z := by
  unfold EndsLine AllButReturn
  match z, hz with
  | [], _ => simp
  | [c], hz =>
    have hc : c ≠ '\n' := fun he => by simp [he] at hz
    simp [hc]
  | c :: d :: r, hz =>
    have hc : c ≠ '\n' := fun he => by simp [he] at hz
    have hd : d ≠ '\n' := fun he => by simp [he] at hz
    simp [hc, hd]

/-- Where no newline ends the line, the text ends it. -/
theorem endsLine_last (y : Text) (hz : '\n' ∉ z) : EndsLine y z ↔ z = [] := by
  refine or_iff_left ?_
  rintro (⟨v, rfl, -⟩ | ⟨v, rfl⟩) <;> simp at hz

/-- What is left of the line tells whether its end comes behind `y`, unless the text ends there
with a carriage return. -/
theorem endsLine_iff (y z : Text) :
    (AllButReturn y (z.takeWhile inLine) ↔ EndsLine y z) ↔ ¬ BareReturn y z := by
  have hz : z.takeWhile inLine ++ z.dropWhile inLine = z := List.takeWhile_append_dropWhile
  have hn : '\n' ∉ z.takeWhile inLine := newline_not_mem_lineBetween [] z
  rcases dropWhile_inLine z with hd | ⟨v, hd⟩
  · rw [hd, List.append_nil] at hz
    rw [hz] at hn ⊢
    rw [endsLine_last y hn, AllButReturn, BareReturn]
    by_cases h : z = [] <;> simp [h]
  · rw [hd] at hz
    have hm : '\n' ∈ z := by
      rw [← hz]
      simp
    refine iff_of_true ?_ ?_
    · rw [← endsLine_newline y hn v, hz]
    · rintro (rfl | ⟨rfl, -⟩) <;> simp at hm

/-! ## Blocks -/

/-- What is asked of a part of a text. -/
theorem isBlock?_eq (x y z : Text) :
    ∃ d, isBlock? (x ++ y ++ z) ⟨x.size, (x ++ y).size⟩ = some d ∧
      (d = true ↔ '\n' ∈ y ∨ LeadsLine x y z ∧ AllButReturn y (z.takeWhile inLine)) := by
  have hl : (x ++ y ++ z).lineAt? x.size = some (lineBetween x (y ++ z)) := by
    rw [List.append_assoc]
    exact lineAt?_size_append x (y ++ z)
  have hs : (x ++ y ++ z).slice? x.size (x ++ y).size = some y :=
    slice?_eq_some_iff.2 ⟨x, z, rfl, rfl, rfl⟩
  refine ⟨_, by rw [isBlock?, hl, hs]; rfl, ?_⟩
  by_cases hy : '\n' ∈ y
  · simp [hy]
  · simp only [Option.any_some, List.contains_eq_mem, hy, decide_false, Bool.false_or,
      Bool.and_eq_true, beq_iff_eq, false_or, firstNonBlank_eq_iff hy]
    exact and_congr_right contentStop_eq_iff

/-- The part `y` of a text, from boundary to boundary, is taken for a block exactly if it holds a
newline or fills its line, unless it is the first thing on the last line and the text ends with a
carriage return, at the end of `y` or right behind it. -/
theorem isBlock_iff (x y z : Text) :
    ∃ d, isBlock? (x ++ y ++ z) ⟨x.size, (x ++ y).size⟩ = some d ∧
      ((d = true ↔ '\n' ∈ y ∨ LeadsLine x y z ∧ EndsLine y z) ↔
        ¬ (LeadsLine x y z ∧ BareReturn y z)) := by
  obtain ⟨d, hd, hiff⟩ := isBlock?_eq x y z
  refine ⟨d, hd, ?_⟩
  rw [hiff]
  by_cases hl : LeadsLine x y z
  · have hy := hl.newline_not_mem
    simp only [hl, hy, true_and, false_or, endsLine_iff]
  · simp [hl]

/-- A letter with a carriage return behind it, where the text ends, fills its line only with the
carriage return; but it is taken for a block without it, and not with it. -/
theorem isBlock_bare_return :
    isBlock? ['a', '\r'] ⟨0, 2⟩ = some false ∧ isBlock? ['a', '\r'] ⟨0, 1⟩ = some true ∧
    LeadsLine [] ['a', '\r'] [] ∧ EndsLine ['a', '\r'] [] ∧ ¬ EndsLine ['a'] ['\r'] :=
  ⟨by decide, by decide, ⟨⟨[], [], rfl, .inl rfl, by simp⟩, by simp [isIndent], by simp⟩,
    .inl rfl, by simp [EndsLine]⟩

end Text

end TreeEdit
