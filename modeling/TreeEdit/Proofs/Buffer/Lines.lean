import TreeEdit.Proofs.Buffer
/-!
# Removing a line

A line ends in a newline, or in a carriage return and a newline, and the last one ends with
the text. `contents` lists the lines without what ends them, and to remove the line at an
offset should take one entry out of that list.

It does, except for the last line of a text in which a carriage return stands in front of the
newline before that line: the newline goes and the carriage return stays, so the line before
has one character more. `deleteLine_erases_iff` says that nothing else can go wrong.
-/

namespace TreeEdit

namespace Text

variable {t x y : Text}

/-! ## The lines of a text -/

/-- A line that a newline ends, without the carriage return in front of the newline. -/
def dropReturn (l : Text) : Text := if l.getLast? = some '\r' then l.dropLast else l

/-- The lines of a text without what ends them. -/
def contents (t : Text) : List Text :=
  t.pieces.dropLast.map dropReturn ++ t.pieces.getLast?.toList

theorem dropReturn_eq_self_iff {l : Text} : dropReturn l = l ↔ l.getLast? ≠ some '\r' := by
  unfold dropReturn
  split
  · rename_i hl
    refine iff_of_false (fun h => ?_) (not_not_intro hl)
    have hlen := congrArg List.length h
    have hpos := List.length_pos_of_mem (List.mem_of_getLast? hl)
    rw [List.length_dropLast] at hlen
    omega
  · rename_i hl
    exact iff_of_true rfl hl

/-- There is one piece more than there are newlines. -/
theorem length_pieces (t : Text) : t.pieces.length = t.count '\n' + 1 := by
  unfold pieces
  induction t with
  | nil => rfl
  | cons c t ih =>
    obtain ⟨w, ws, hw⟩ := List.exists_cons_of_ne_nil (splitWhere_ne_nil (· == '\n') t)
    rw [splitWhere, List.count_cons]
    rw [hw] at ih ⊢
    split <;> simpa using ih

theorem length_contents (t : Text) : t.contents.length = t.count '\n' + 1 := by
  obtain h | ⟨ps, w, h⟩ := List.eq_nil_or_concat t.pieces
  · exact absurd h t.pieces_ne_nil
  · rw [← length_pieces, contents, h]
    simp

theorem contents_of_not_mem (h : '\n' ∉ t) : t.contents = [t] := by
  rw [contents, pieces_of_not_mem h]
  rfl

/-- A newline ends every line before it. -/
theorem contents_newline (x y : Text) :
    contents (x ++ '\n' :: y) = x.pieces.map dropReturn ++ y.contents := by
  obtain h | ⟨ps, w, h⟩ := List.eq_nil_or_concat y.pieces
  · exact absurd h y.pieces_ne_nil
  · rw [List.concat_eq_append] at h
    rw [contents, pieces_newline, h, ← List.append_assoc, List.dropLast_concat, contents, h]
    simp

/-- The last line is as if a newline ended it, unless there is a carriage return at its end. -/
theorem contents_eq_map_iff : t.contents = t.pieces.map dropReturn ↔ t.getLast? ≠ some '\r' := by
  obtain ⟨ht, hn, hb, -, -, -⟩ := delimits_lineBetween t []
  have hv : (lineBetween t []).behind = [] := rfl
  rw [hv, List.append_nil, List.append_nil] at ht
  rcases hb with hb | ⟨u, hb⟩
  · rw [hb, List.nil_append] at ht
    rw [← ht] at hn
    rw [contents_of_not_mem hn, pieces_of_not_mem hn, List.map_singleton, List.singleton_inj,
      eq_comm, dropReturn_eq_self_iff]
  · generalize (lineBetween t []).content = w at ht hn
    rw [hb, List.append_assoc, List.singleton_append] at ht
    have hl : t.getLast? = some '\r' ↔ w.getLast? = some '\r' := by
      rw [ht]
      cases w with
      | nil => simp
      | cons c w => simp
    rw [ne_eq, hl, ← ne_eq, ← dropReturn_eq_self_iff, ht, contents_newline, pieces_newline,
      contents_of_not_mem hn, pieces_of_not_mem hn, List.map_append, List.append_cancel_left_eq,
      List.map_singleton, List.singleton_inj, eq_comm]

/-! ## One line less -/

/-- The list of lines without the `n`-th one; of a single line an empty one is left. -/
def eraseLine (ls : List Text) (n : Nat) : List Text :=
  if ls.length = 1 then [[]] else ls.eraseIdx n

theorem eraseLine_append {ls ms : List Text} (h : ls ++ ms ≠ []) (l : Text) :
    eraseLine (ls ++ l :: ms) ls.length = ls ++ ms := by
  have hlen : (ls ++ l :: ms).length ≠ 1 := by
    have hpos := List.length_pos_iff.2 h
    simp only [List.length_append, List.length_cons] at hpos ⊢
    omega
  rw [eraseLine, if_neg hlen, List.eraseIdx_append_of_length_le (Nat.le_refl _), Nat.sub_self]
  rfl

end Text

namespace Line.Delimits

variable {l : Line} {t : Text} {o : Nat}

/-- The lines before the line are whole, one for each newline. -/
theorem contents_append (h : l.Delimits t o) :
    ∃ ls, ls.length = l.before.count '\n' ∧
      ∀ y, Text.contents (l.before ++ y) = ls ++ Text.contents y := by
  rcases h.before with hb | ⟨u, hb⟩
  · exact ⟨[], by simp [hb], fun y => by simp [hb]⟩
  · refine ⟨u.pieces.map Text.dropReturn, ?_, fun y => ?_⟩
    · simp [hb, Text.length_pieces]
    · rw [hb, List.append_assoc, List.singleton_append, Text.contents_newline]

/-- What is left when a line is removed has one line less, unless it is the last line and a carriage
return stands before the newline in front of it. -/
theorem contents_rest_iff (h : l.Delimits t o) :
    Text.contents l.rest = Text.eraseLine t.contents (l.before.count '\n') ↔
      ¬ (l.behind = [] ∧ ∃ u, l.before = u ++ ['\r', '\n']) := by
  obtain ⟨ls, hls, happ⟩ := h.contents_append
  rw [← hls, h.text, List.append_assoc, happ]
  rcases h.behind with hv | ⟨v, hv⟩
  · rw [hv, List.append_nil, Text.contents_of_not_mem h.newline_not_mem, and_iff_right rfl]
    rcases h.before with hb | ⟨u, hb⟩
    · obtain rfl : ls = [] := List.length_eq_zero_iff.1 (by simp [hls, hb])
      have hr : l.rest = [] := by rw [rest, hv, hb]; rfl
      rw [hr, hb]
      exact iff_of_true rfl (by simp)
    · -- The newline in front goes, so what was the line before it is now the last line.
      have hr : l.rest = u := by simp [rest, hv, hb]
      obtain rfl : u.pieces.map Text.dropReturn = ls := by
        have hu := happ []
        rw [hb, List.append_assoc, List.singleton_append, Text.contents_newline] at hu
        exact List.append_cancel_right hu
      have hne : u.pieces.map Text.dropReturn ++ [] ≠ [] := by
        simpa using u.pieces_ne_nil
      have hcut (v : Text) : u ++ ['\n'] = v ++ ['\r', '\n'] ↔ u = v ++ ['\r'] := by
        rw [List.append_cons v, List.append_left_inj]
      simp only [hr, Text.eraseLine_append hne, List.append_nil, Text.contents_eq_map_iff, hb,
        ne_eq, List.getLast?_eq_some_iff, hcut]
  · have hr : l.rest = l.before ++ v := by rw [rest, hv]
    have hv' : Text.contents v ≠ [] := List.length_pos_iff.1 (by rw [Text.length_contents]; omega)
    rw [hr, happ, hv, Text.contents_newline, Text.pieces_of_not_mem h.newline_not_mem,
      List.map_singleton, List.singleton_append, Text.eraseLine_append (by simp [hv'])]
    simp

end Line.Delimits

namespace Text

variable {x y : Text}

/-- Between the start of the line and the offset there is no newline. -/
theorem exists_before (x y : Text) : ∃ w, x = (lineBetween x y).before ++ w ∧ '\n' ∉ w := by
  refine ⟨(x.reverse.takeWhile inLine).reverse, ?_, fun hm => ?_⟩
  · rw [lineBetween, ← List.reverse_append, List.takeWhile_append_dropWhile, List.reverse_reverse]
  · rw [List.mem_reverse] at hm
    simpa [inLine] using List.all_eq_true.1 List.all_takeWhile _ hm

theorem count_before (x y : Text) : (lineBetween x y).before.count '\n' = x.count '\n' := by
  obtain ⟨w, hx, hw⟩ := exists_before x y
  conv => rhs; rw [hx]
  rw [List.count_append, List.count_eq_zero_of_not_mem hw, Nat.add_zero]

theorem behind_eq_nil_iff : (lineBetween x y).behind = [] ↔ '\n' ∉ y := by
  simp only [lineBetween, List.dropWhile_eq_nil_iff, inLine, bne_iff_ne]
  exact ⟨fun h hm => h _ hm rfl, fun h c hc he => h (he ▸ hc)⟩

/-- The line is the last one, with a carriage return and a newline in front of it. -/
theorem lineBetween_last_iff :
    ((lineBetween x y).behind = [] ∧ ∃ u, (lineBetween x y).before = u ++ ['\r', '\n']) ↔
      ∃ u w, x = u ++ ['\r', '\n'] ++ w ∧ '\n' ∉ w ++ y := by
  rw [behind_eq_nil_iff]
  constructor
  · rintro ⟨hy, u, hu⟩
    obtain ⟨w, hx, hw⟩ := exists_before x y
    exact ⟨u, w, hu ▸ hx, by simp [hw, hy]⟩
  · rintro ⟨u, w, rfl, hn⟩
    rw [List.mem_append, not_or] at hn
    have hw : ∀ c ∈ w.reverse, inLine c = true := fun c hc =>
      inLine_of_not_mem hn.1 c (List.mem_reverse.1 hc)
    refine ⟨hn.2, u, ?_⟩
    simp only [lineBetween, List.reverse_append, List.dropWhile_append_of_pos hw]
    simp [inLine]

end Text

namespace Buffer

variable {b : Buffer} {x y : Text}

/-- Removing the line at the end of `x` takes out of the text the bytes that it returns. The line
is the one with as many newlines before it as `x` has. The list of lines is then the old list
without that line, unless it is the last one and a carriage return and a newline stand in front. -/
theorem deleteLine_erases_iff (h : b.text = x ++ y) :
    ∃ u v w b', b.text = u ++ v ++ w ∧
      (deleteLine x.size).perform b = (.ok ⟨u.size, (u ++ v).size⟩, b') ∧ b'.text = u ++ w ∧
      x.count '\n' < b.text.contents.length ∧
      (b'.text.contents = Text.eraseLine b.text.contents (x.count '\n') ↔
        ¬ ∃ p q, x = p ++ ['\r', '\n'] ++ q ∧ '\n' ∉ q ++ y) := by
  obtain ⟨u, v, w, ht, hr, hs, hp⟩ := perform_deleteLine h
  have htext : (b.splice u v [] w).text = u ++ w := by rw [splice_text ht, List.append_nil]
  refine ⟨u, v, w, _, ht, hs ▸ hp, htext, ?_, ?_⟩
  · rw [Text.length_contents, h, List.count_append]
    omega
  · rw [htext, hr, h, ← Text.count_before x y,
      (Text.delimits_lineBetween x y).contents_rest_iff, Text.lineBetween_last_iff]

/-- The line in the middle goes with the two characters that end it. -/
theorem deleteLine_erases_iff_middle :
    ∃ b', (deleteLine 5).perform
        (.ofText ['a', '\r', '\n', 'é', '\r', '\n', 'c'] .json) = (.ok ⟨3, 7⟩, b') ∧
      b'.text.contents = [['a'], ['c']] := by
  obtain ⟨u, v, w, b', -, h, -, -, hiff⟩ := deleteLine_erases_iff
    (b := .ofText ['a', '\r', '\n', 'é', '\r', '\n', 'c'] .json)
    (x := ['a', '\r', '\n', 'é']) (y := ['\r', '\n', 'c']) rfl
  have hc := hiff.2 (by rintro ⟨p, q, -, hn⟩; simp at hn)
  obtain ⟨-, rfl⟩ := Prod.mk.inj h
  exact ⟨_, rfl, hc.trans (by decide)⟩

/-- Behind a carriage return and a newline, the carriage return stays. -/
theorem deleteLine_keeps_return :
    ∃ b', (deleteLine 3).perform (.ofText ['a', '\r', '\n', 'b'] .json) = (.ok ⟨2, 4⟩, b') ∧
      Text.contents ['a', '\r', '\n', 'b'] = [['a'], ['b']] ∧
      b'.text.contents = [['a', '\r']] ∧
      b'.text.contents ≠ Text.eraseLine [['a'], ['b']] 1 :=
  ⟨_, rfl, by decide, by decide, by decide⟩

end Buffer

end TreeEdit
