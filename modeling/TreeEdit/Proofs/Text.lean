import Mathlib.Data.List.TakeWhile
import TreeEdit.Text.Line
/-!
# Boundaries and lines

How the boundaries of a text relate to those of its parts, and what a line of a
text is: `Line.Delimits` says it without the search that finds the line, and
`delimits_lineBetween` that the search does find it. Behind a text that ends at the
start of a line the search goes no further back (`lineBetween_of_lineStart`).

Removing a line leaves `Line.rest`. If the line is blank, the characters that are
not blank are the same before and after (`Delimits.solid_rest`).

The pieces of a text are what the library's split by newlines gives, and
`pieces_join` reads lines back from their text.

Indentation stays within a line, and `suffix_of_suffix_newline` says so of texts
that end in it.
-/

namespace TreeEdit

namespace Text

/-! ## Boundaries -/

theorem isBoundary_append_left {x : Text} {n : Nat} (h : x.isBoundary n = true) (y : Text) :
    (x ++ y).isBoundary n = true := by
  obtain ⟨a, b, rfl, rfl⟩ := isBoundary_iff.1 h
  exact isBoundary_iff.2 ⟨a, b ++ y, by simp, rfl⟩

theorem isBoundary_append_right {y : Text} {n : Nat} (h : y.isBoundary n = true) (x : Text) :
    (x ++ y).isBoundary (x.size + n) = true := by
  obtain ⟨a, b, rfl, rfl⟩ := isBoundary_iff.1 h
  exact isBoundary_iff.2 ⟨x ++ a, b, by simp, by simp⟩

/-- Of two ways to take a text apart, the one that splits first leaves the beginning of the
other's rest. -/
theorem append_of_size_le {x y u v : Text} (h : x ++ y = u ++ v) (hs : x.size ≤ u.size) :
    ∃ k, u = x ++ k ∧ y = k ++ v := by
  rcases List.append_eq_append_iff.1 h with ⟨k, hu, hy⟩ | ⟨k, hx, hv⟩
  · exact ⟨k, hu, hy⟩
  · have hk : k = [] := size_eq_zero_iff.1 (by rw [hx, size_append] at hs; omega)
    subst hk
    exact ⟨[], by simpa using hx.symm, by simpa using hv.symm⟩

theorem isBoundary_of_le {x y : Text} {n : Nat} (h : (x ++ y).isBoundary n = true)
    (hn : n ≤ x.size) : x.isBoundary n = true := by
  obtain ⟨a, b, he, rfl⟩ := isBoundary_iff.1 h
  obtain ⟨c, hx, -⟩ := append_of_size_le he.symm hn
  exact isBoundary_iff.2 ⟨a, c, hx, rfl⟩

theorem isBoundary_of_ge {x y : Text} {n : Nat} (h : (x ++ y).isBoundary n = true)
    (hn : x.size ≤ n) : y.isBoundary (n - x.size) = true := by
  obtain ⟨a, b, he, rfl⟩ := isBoundary_iff.1 h
  obtain ⟨c, rfl, hy⟩ := append_of_size_le he hn
  exact isBoundary_iff.2 ⟨c, b, hy, by simp⟩

theorem floor_of_isBoundary {t : Text} {n : Nat} (h : t.isBoundary n = true) : t.floor n = n :=
  Nat.le_antisymm (floor_le t n) (le_floor h (Nat.le_refl n))

/-- Two boundaries take the text apart into three. -/
theorem exists_parts {t : Text} {m n : Nat} (hm : t.isBoundary m = true)
    (hn : t.isBoundary n = true) (hmn : m ≤ n) :
    ∃ x y z, t = x ++ y ++ z ∧ x.size = m ∧ (x ++ y).size = n := by
  obtain ⟨a, z, rfl, rfl⟩ := isBoundary_iff.1 hn
  obtain ⟨x, y, rfl, rfl⟩ := isBoundary_iff.1 (isBoundary_of_le hm hmn)
  exact ⟨x, y, z, rfl, rfl, rfl⟩

/-! ## What is not blank -/

/-- The characters that are not blank, in their order. -/
def solid (t : Text) : Text := t.filter fun c => !isBlank c

@[simp] theorem solid_append (x y : Text) : (x ++ y).solid = x.solid ++ y.solid :=
  List.filter_append ..

theorem solid_eq_nil {t : Text} (h : t.allBlank = true) : t.solid = [] := by
  rw [solid, List.filter_eq_nil_iff]
  intro c hc
  simp [List.all_eq_true.1 h c hc]

end Text

/-! ## Lines -/

namespace Line

/-- The line is the one of the text around an offset: newlines, or the ends of the text, stand
on both sides of it, and none stands in it. -/
structure Delimits (l : Line) (t : Text) (o : Nat) : Prop where
  text : t = l.before ++ l.content ++ l.behind
  newline_not_mem : '\n' ∉ l.content
  before : l.before = [] ∨ ∃ u, l.before = u ++ ['\n']
  behind : l.behind = [] ∨ ∃ v, l.behind = '\n' :: v
  start_le : l.start ≤ o
  le_stop : o ≤ l.stop

/-- The text without the line and one newline: the newline that ends the line, else the one in
front of it, and none if there is no other line. -/
def rest (l : Line) : Text :=
  match l.behind with
  | _ :: v => l.before ++ v
  | [] => l.before.dropLast

end Line

namespace Text

theorem dropWhile_inLine (t : Text) :
    t.dropWhile inLine = [] ∨ ∃ v, t.dropWhile inLine = '\n' :: v := by
  have hh := List.head?_dropWhile_not inLine t
  cases h : t.dropWhile inLine with
  | nil => exact .inl rfl
  | cons c v =>
    rw [h] at hh
    have hc : c = '\n' := by simpa [inLine] using hh
    exact .inr ⟨v, by rw [hc]⟩

theorem lineAt?_size_append (x y : Text) :
    (x ++ y).lineAt? x.size = some (lineBetween x y) := by
  simp [lineAt?, splitAt?_size_append]

theorem delimits_of_lineAt? {t : Text} {o : Nat} {l : Line} (h : t.lineAt? o = some l)
    (ho : o ≤ t.size) : l.Delimits t o := by
  obtain ⟨ht, hn⟩ := append_of_lineAt? h
  obtain ⟨hs, hl⟩ := start_le_of_lineAt? h
  rw [Nat.min_eq_left ho] at hs hl
  obtain ⟨⟨x, y⟩, -, rfl⟩ := Option.map_eq_some_iff.1 h
  refine ⟨ht, hn, ?_, dropWhile_inLine y, hs, hl⟩
  rcases dropWhile_inLine x.reverse with hd | ⟨u, hd⟩
  · exact .inl (by simp [lineBetween, hd])
  · exact .inr ⟨u.reverse, by simp [lineBetween, hd]⟩

/-- A line starts where the text ends. -/
def AtLineStart (u : Text) : Prop := u = [] ∨ ∃ v, u = v ++ ['\n']

theorem inLine_of_not_mem {w : Text} (hw : '\n' ∉ w) : ∀ c ∈ w, inLine c = true := by
  intro c hc
  rw [inLine, bne_iff_ne]
  rintro rfl
  exact hw hc

/-- The line around a place that `w` leads to starts where `w` does. -/
theorem lineBetween_of_lineStart {u w : Text} (hu : AtLineStart u) (hw : '\n' ∉ w) (y : Text) :
    lineBetween (u ++ w) y = ⟨u, w ++ y.takeWhile inLine, y.dropWhile inLine⟩ := by
  have hr : ∀ c ∈ w.reverse, inLine c = true := fun c hc =>
    inLine_of_not_mem hw c (List.mem_reverse.1 hc)
  have ht : u.reverse.takeWhile inLine = [] ∧ u.reverse.dropWhile inLine = u.reverse := by
    rcases hu with rfl | ⟨v, rfl⟩ <;> simp [inLine]
  simp only [lineBetween, List.reverse_append, List.takeWhile_append_of_pos hr,
    List.dropWhile_append_of_pos hr, ht.1, ht.2, List.append_nil, List.reverse_reverse]

theorem delimits_lineBetween (x y : Text) : (lineBetween x y).Delimits (x ++ y) x.size :=
  delimits_of_lineAt? (lineAt?_size_append x y) (by simp)

/-! ## Pieces -/

theorem splitWhere_eq_splitOnP (p : Char → Bool) (t : Text) : splitWhere p t = t.splitOnP p := by
  induction t with
  | nil => rfl
  | cons c t ih =>
    obtain ⟨w, ws, hw⟩ := List.exists_cons_of_ne_nil (splitWhere_ne_nil p t)
    rw [splitWhere, List.splitOnP_cons_eq_if_modifyHead, ← ih, hw]
    rfl

theorem pieces_ne_nil (t : Text) : t.pieces ≠ [] := splitWhere_ne_nil _ t

/-- A newline divides the pieces. -/
theorem pieces_newline (x y : Text) : pieces (x ++ '\n' :: y) = x.pieces ++ y.pieces := by
  simp only [pieces, splitWhere_eq_splitOnP]
  exact List.splitOnP_append_cons x y rfl

theorem pieces_of_not_mem {t : Text} (h : '\n' ∉ t) : t.pieces = [t] := by
  rw [pieces, splitWhere_eq_splitOnP]
  refine List.splitOnP_eq_singleton fun c hc => ?_
  rw [beq_eq_false_iff_ne]
  rintro rfl
  exact h hc

/-- Lines put together have these lines for pieces. -/
theorem pieces_join {ls : List Text} (hne : ls ≠ []) (h : ∀ l ∈ ls, '\n' ∉ l) :
    (join ['\n'] ls).pieces = ls := by
  induction ls with
  | nil => exact absurd rfl hne
  | cons l ls ih =>
    obtain ⟨hl, hls⟩ := List.forall_mem_cons.1 h
    cases ls with
    | nil => exact pieces_of_not_mem hl
    | cons k ls =>
      have hj : join ['\n'] (l :: k :: ls) = l ++ '\n' :: join ['\n'] (k :: ls) := by simp [join]
      rw [hj, pieces_newline, pieces_of_not_mem hl, ih (by simp) hls, List.singleton_append]

/-! ## Indentation -/

theorem isIndent_of_mem_indentation (t : Text) : ∀ c ∈ t.indentation, isIndent c = true :=
  List.all_eq_true.1 List.all_takeWhile

theorem newline_not_mem_indentation (t : Text) : '\n' ∉ t.indentation := fun hm => by
  simpa [isIndent] using t.isIndent_of_mem_indentation _ hm

theorem indentation_append {x : Text} (h : ∀ c ∈ x, isIndent c = true) (y : Text) :
    (x ++ y).indentation = x ++ y.indentation := List.takeWhile_append_of_pos h

theorem indentation_append_dropWhile (t : Text) : t.indentation ++ t.dropWhile isIndent = t :=
  List.takeWhile_append_dropWhile

/-- The indentation of a text is that of its first line. -/
theorem indentation_takeWhile_inLine (t : Text) :
    indentation (t.takeWhile inLine) = t.indentation := by
  have h : ∀ c : Char, (isIndent c && inLine c) = isIndent c := by
    intro c
    by_cases hc : c = '\n' <;> simp [isIndent, inLine, hc]
  rw [indentation, indentation, List.takeWhile_takeWhile]
  congr 1
  funext c
  rw [Bool.decide_and, Bool.decide_eq_true, Bool.decide_eq_true, h]

theorem exists_lineEnding (t : Text) : ∃ u, t.lineEnding = u ++ ['\n'] := by
  unfold lineEnding
  split
  · exact ⟨['\r'], rfl⟩
  · exact ⟨[], rfl⟩

/-- What holds no newline does not reach over one. -/
theorem suffix_of_suffix_newline {x y w : Text} (h : w <:+ x ++ ['\n'] ++ y) (hw : '\n' ∉ w) :
    w <:+ y := by
  rcases Nat.le_total w.length y.length with hl | hl
  · exact List.suffix_of_suffix_length_le h (List.suffix_append _ y) hl
  · obtain ⟨v, rfl⟩ := List.suffix_of_suffix_length_le (List.suffix_append _ y) h hl
    -- What `w` has more than `y` ends where `x` and the newline end, so with the newline.
    have hv : v <:+ x ++ ['\n'] := List.suffix_append_self_iff.1 h
    rcases List.eq_nil_or_concat v with rfl | ⟨v, c, rfl⟩
    · exact List.suffix_refl y
    · rw [List.concat_eq_append] at hv hw
      have hc : c = '\n' := by
        obtain ⟨u, hu⟩ := hv
        rw [← List.append_assoc] at hu
        simpa using (List.append_inj' hu rfl).2
      simp [hc] at hw

end Text

/-- A line starts with its indentation. -/
theorem Line.append_indentation (l : Line) :
    l.before ++ l.indentation ++ (l.content.dropWhile isIndent ++ l.behind)
      = l.before ++ l.content ++ l.behind := by
  have hc : l.indentation ++ l.content.dropWhile isIndent = l.content :=
    l.content.indentation_append_dropWhile
  rw [← List.append_assoc, List.append_assoc l.before l.indentation, hc]

namespace Line.Delimits

variable {l : Line} {t : Text} {o : Nat}

/-- The removal of a line is a cut of the text that leaves the rest. What goes is the line and
at most one newline. -/
theorem removal_cut (h : l.Delimits t o) :
    ∃ x y z, t = x ++ y ++ z ∧ l.removal = ⟨x.size, (x ++ y).size⟩ ∧ x ++ z = l.rest ∧
      (y = l.content ++ ['\n'] ∨ y = '\n' :: l.content ∨ y = l.content) := by
  obtain ⟨ht, -, hb, hv, -, -⟩ := h
  obtain ⟨before, content, behind⟩ := l
  simp only at ht hb hv
  have hn : Char.utf8Size '\n' = 1 := rfl
  rcases hv with rfl | ⟨v, rfl⟩
  · rcases hb with rfl | ⟨u, rfl⟩
    · exact ⟨[], content, [], ht, by simp [removal, start, stop], rfl, .inr (.inr rfl)⟩
    · refine ⟨u, '\n' :: content, [], by simp [ht], ?_, by simp [rest], .inr (.inl rfl)⟩
      simp [removal, start, stop, hn, Nat.add_assoc]
  · refine ⟨before, content ++ ['\n'], v, by simp [ht], ?_, rfl, .inl rfl⟩
    simp [removal, start, stop, hn, Nat.add_assoc]

/-- Removing a blank line takes blanks only. -/
theorem solid_rest (h : l.Delimits t o) (hb : l.isBlank = true) : l.rest.solid = t.solid := by
  obtain ⟨x, y, z, rfl, -, hr, hy⟩ := h.removal_cut
  have hc : l.content.solid = [] := Text.solid_eq_nil hb
  have hy' : y.solid = [] := by
    rcases hy with rfl | rfl | rfl
    · rw [Text.solid_append, hc]
      rfl
    · exact hc
    · exact hc
  rw [← hr, Text.solid_append, Text.solid_append, Text.solid_append, hy', List.append_nil]

end Line.Delimits

end TreeEdit
