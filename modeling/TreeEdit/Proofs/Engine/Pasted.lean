import TreeEdit.Proofs.Engine.Paste
import TreeEdit.Proofs.Engine.Settle
/-!
# The text and point after a paste

`Text.withPaste` is what becomes of a text by a paste next to a node, in one formula for
each kind of node and each side. On lines of its own a paste changes the text twice: it
inserts the copies and a line break, and then it gives the line behind the break the
indentation of the node's line. `paste_text` says that the two come to the formula, whatever
the entry starts with and whatever stands behind the node.

`paste_point_iff` says where point is then: at the start of the reported span exactly if the
parser puts the start of a node there.
-/

namespace TreeEdit

/-! ## The text -/

namespace Text

/-- The text before an offset. -/
def headTo (t : Text) (o : Nat) : Text := (t.splitAt? o).elim [] Prod.fst

theorem headTo_size_append (x y : Text) : (x ++ y).headTo x.size = x := by
  rw [headTo, splitAt?_size_append]
  rfl

/-- The text with copies of an entry next to a node. On lines of its own the copies are re-based
onto the indentation of the node's line, and what stands behind the new line break loses its own
indentation to that. Inside a line a space sets them off. -/
def withPaste (t : Text) (node : Span) (entry : Text) (count : Nat) (placement : Placement) :
    Text :=
  if t.isBlock? node = some true then
    let indent := t.indentAt node.start
    let body := (entry.rebase indent).copies (t.lineEnding ++ indent) count
    match placement with
    | .after => t.headTo node.stop ++ t.lineEnding ++ indent
        ++ (body ++ t.tailFrom node.stop).dropWhile isIndent
    | .before => t.headTo node.start ++ body ++ t.lineEnding ++ indent
        ++ (t.tailFrom node.start).dropWhile isIndent
  else
    match placement with
    | .after => t.headTo node.stop ++ [' '] ++ entry.copies [' '] count ++ t.tailFrom node.stop
    | .before => t.headTo node.start ++ entry.copies [' '] count ++ [' '] ++ t.tailFrom node.start

end Text

namespace Engine

variable {P : Parser} {e e' : Engine} {b b' : Buffer} {x y z entry : Text} {node span : Span}
  {count : Nat} {placement : Placement}

/-- A paste next to a node at boundaries leaves the text of the formula. -/
theorem text_of_pasteText (h : b.text = x ++ y ++ z) (hs : x.size = node.start)
    (ht : (x ++ y).size = node.stop)
    (hp : (pasteText entry count placement node).perform b = (.ok span, b')) :
    b'.text = b.text.withPaste node entry count placement := by
  have hx : b.text = x ++ (y ++ z) := by rw [h, List.append_assoc]
  have hstart : b.text.headTo node.start = x ∧ b.text.tailFrom node.start = y ++ z := by
    rw [hx, ← hs, Text.headTo_size_append, Text.tailFrom_size_append]
    exact ⟨rfl, rfl⟩
  have hstop : b.text.headTo node.stop = x ++ y ∧ b.text.tailFrom node.stop = z := by
    rw [h, ← ht, Text.headTo_size_append, Text.tailFrom_size_append]
    exact ⟨rfl, rfl⟩
  -- Each of the four kinds of paste is known in terms of these parts.
  rw [perform_pasteText (Text.isBoundary_iff.2 ⟨x, y ++ z, hx, hs⟩)] at hp
  unfold Text.withPaste
  split at hp
  · simp at hp
  · split at hp
    · rename_i hb
      obtain ⟨⟨b₁, h₁, hp₁⟩, ⟨b₂, h₂, hp₂⟩⟩ := perform_pasteBlock h hs ht hb
        (rfl : b.text.pasted node entry count = _)
      rw [Text.pasted, Text.separator, if_pos hb, if_pos hb] at h₁ h₂
      rw [if_pos hb]
      cases placement with
      | after =>
        rw [hp₁] at hp
        obtain ⟨-, -, rfl⟩ := spanFrom_eq_ok hp
        simp only [h₁, hstop, List.append_assoc]
      | before =>
        rw [hp₂] at hp
        obtain ⟨-, rfl⟩ := Prod.mk.inj hp
        simp only [h₂, hstart, List.append_assoc]
    · rename_i hb
      obtain ⟨⟨b₁, h₁, hp₁⟩, ⟨b₂, h₂, hp₂⟩⟩ := perform_pasteInline h hs ht hb
        (rfl : b.text.pasted node entry count = _)
      rw [Text.pasted, Text.separator, if_neg hb, if_neg hb] at h₁ h₂
      rw [if_neg hb]
      cases placement with
      | after =>
        rw [hp₁] at hp
        obtain ⟨-, rfl⟩ := Prod.mk.inj hp
        simp only [h₁, hstop, List.append_assoc]
      | before =>
        rw [hp₂] at hp
        obtain ⟨-, rfl⟩ := Prod.mk.inj hp
        simp only [h₂, hstart, List.append_assoc]

/-- A paste that reports a span has pasted the newest entry next to the selected node and settled at
the start of the span. -/
theorem paste_eq_pasted (h : (paste P count placement).perform e = (.ok (.pasted span), e')) :
    ∃ entry r b, e.killRing.top? = some entry ∧ (e.current P).1 = some r ∧
      (pasteText entry (max count 1) placement r.span).perform e.buffer = (.ok span, b) ∧
      e' = settle P { (e.current P).2.breakSequence with buffer := b } span.start none := by
  rcases paste_cases P e count placement with hn | hn | ⟨entry, r, htop, hr, hres⟩
  · rw [hn] at h
    simp at h
  · rw [hn] at h
    simp at h
  · rw [perform_paste htop hr hres] at h
    cases hp : (pasteText entry (max count 1) placement r.span).perform e.buffer with
    | mk res b =>
      rw [hp] at h
      cases res with
      | error f => simp at h
      | ok s =>
        obtain ⟨hs, rfl⟩ := Prod.mk.inj h
        obtain rfl : s = span := by simpa using hs
        exact ⟨entry, r, b, htop, hr, hp, rfl⟩

theorem text_of_paste {r : NodeRef} {a : Address} (hw : (e.tree P).WellFormed e.buffer.text)
    (htop : e.killRing.top? = some entry) (hr : (e.current P).1 = some r)
    (ha : (e.tree P).spanAt a = r.span)
    (h : (paste P count placement).perform e = (.ok (.pasted span), e')) :
    e'.buffer.text = e.buffer.text.withPaste r.span entry (max count 1) placement := by
  obtain ⟨entry', r', b, htop', hr', hp, rfl⟩ := paste_eq_pasted h
  obtain rfl : entry = entry' := Option.some.inj (htop.symm.trans htop')
  obtain rfl : r = r' := Option.some.inj (hr.symm.trans hr')
  obtain ⟨x, y, z, ht, hs, hs'⟩ := Text.exists_parts (hw.fits.start a) (hw.fits.stop a)
    (hw.ordered.spanAt_le a)
  rw [ha] at hs hs'
  rw [settle_text]
  exact text_of_pasteText ht hs hs' hp

/-- A paste that reports a span leaves the text of the formula and all entries of the ring. -/
theorem paste_text {r : NodeRef} {a : Address} (hw : (e.tree P).WellFormed e.buffer.text)
    (htop : e.killRing.top? = some entry) (hr : (e.current P).1 = some r)
    (ha : (e.tree P).spanAt a = r.span)
    (h : (paste P count placement).perform e = (.ok (.pasted span), e')) :
    e'.buffer.text = e.buffer.text.withPaste r.span entry (max count 1) placement ∧
      e'.killRing.entries = e.killRing.entries := by
  refine ⟨text_of_paste hw htop hr ha h, ?_⟩
  obtain ⟨-, -, b, -, -, -, rfl⟩ := paste_eq_pasted h
  -- That the ring's sequence of deletions has ended touches no entry.
  have hring : (e.current P).2.killRing.entries = e.killRing.entries := by rw [current_killRing]
  rw [settle_killRing]
  exact hring

/-- Behind a letter on an indented line and in front of one inside a line. -/
theorem paste_text_copies :
    (∃ e', (paste .letters 2 .after).perform (holding [' ', 'a'] 1 ['x', '\n', '\t', 'y'])
        = (.ok (.pasted ⟨4, 14⟩), e') ∧
      e'.buffer.text = [' ', 'a', '\n', ' ', 'x', '\n', ' ', 'y', '\n', ' ', 'x', '\n', ' ', 'y'] ∧
      e'.killRing.entries = [['x', '\n', '\t', 'y']]) ∧
    ∃ e', (paste .letters 0 .before).perform (holding ['a', ' ', 'b'] 2 [' ', 'x'])
        = (.ok (.pasted ⟨2, 4⟩), e') ∧
      e'.buffer.text = ['a', ' ', ' ', 'x', ' ', 'b'] ∧ e'.killRing.entries = [[' ', 'x']] := by
  constructor
  · obtain ⟨e', h⟩ : ∃ e', (paste .letters 2 .after).perform
        (holding [' ', 'a'] 1 ['x', '\n', '\t', 'y']) = (.ok (.pasted ⟨4, 14⟩), e') := ⟨_, rfl⟩
    have ht := paste_text (P := .letters) (a := [0]) (Parser.wellFormed_letters _ _) rfl rfl rfl h
    exact ⟨e', h, ht⟩
  · obtain ⟨e', h⟩ : ∃ e', (paste .letters 0 .before).perform
        (holding ['a', ' ', 'b'] 2 [' ', 'x']) = (.ok (.pasted ⟨2, 4⟩), e') := ⟨_, rfl⟩
    have ht := paste_text (P := .letters) (a := [1]) (Parser.wellFormed_letters _ _) rfl rfl rfl h
    exact ⟨e', h, ht⟩

/-! ## Point -/

/-- Whatever a paste reports, point is at the start of that exactly if the start is a boundary of
the new text and some node of the new tree starts there. -/
theorem paste_point_iff (hw : (e'.tree P).WellFormed e'.buffer.text)
    (h : (paste P count placement).perform e = (.ok (.pasted span), e')) :
    e'.buffer.point = span.start ↔ e'.buffer.text.isBoundary span.start = true ∧
      ((e'.tree P).StartsAt span.start ∨ (e'.tree P).span.isEmpty = true) := by
  obtain ⟨entry, r, b, -, -, -, rfl⟩ := paste_eq_pasted h
  rw [settle_tree, settle_text] at hw ⊢
  exact settle_point_eq_iff hw

/-- A letter that is pasted on a line of its own starts a node. -/
theorem paste_point_iff_letter :
    ∃ e', (paste .letters 1 .after).perform (holding ['a'] 0 ['b']) = (.ok (.pasted ⟨2, 3⟩), e') ∧
      e'.buffer.point = 2 := by
  have hs : (Parser.letters 1 ['a', '\n', 'b']).StartsAt 2 := ⟨[1], rfl, rfl, .inl rfl⟩
  obtain ⟨e', h, ht, hp⟩ : ∃ e', (paste .letters 1 .after).perform (holding ['a'] 0 ['b'])
      = (.ok (.pasted ⟨2, 3⟩), e') ∧ e'.buffer.text = ['a', '\n', 'b'] ∧
      e'.tree .letters = Parser.letters 1 ['a', '\n', 'b'] := ⟨_, rfl, rfl, rfl⟩
  have hiff := paste_point_iff (P := .letters) (Parser.wellFormed_letters _ _) h
  rw [ht, hp] at hiff
  exact ⟨e', h, hiff.2 ⟨rfl, .inl hs⟩⟩

/-- An entry that starts with a space starts no node inside a line, and point goes to the start of
the text instead. -/
theorem paste_point_elsewhere :
    ∃ e', (paste .letters 1 .after).perform (holding ['a', 'b'] 1 [' ', 'x'])
        = (.ok (.pasted ⟨3, 5⟩), e') ∧
      (e'.tree .letters).WellFormed e'.buffer.text ∧
      e'.buffer.text = ['a', 'b', ' ', ' ', 'x'] ∧ e'.buffer.point = 0 :=
  ⟨_, rfl, Parser.wellFormed_letters _ _, rfl, rfl⟩

end Engine

end TreeEdit
