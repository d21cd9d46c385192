import TreeEdit.Proofs.Engine.Deletion
import TreeEdit.Proofs.Engine.Navigation
import TreeEdit.Proofs.Engine.Settle
/-!
# The neighbour of a deletion

A deletion selects the sibling behind what it takes, or the one before it if it goes
backward. To find that sibling again its start is carried along: past the deleted span, and
past the blank line that may go with it (`relocate`).

The line that goes is blank, so a character that is not stands before it or behind it, and
stays (`Delimits.keeps_behind`, `Delimits.keeps_before`). `neighbour_selected` draws the
consequence: a sibling whose text is not blank on the side of the deletion stands where its
start was carried to, and is selected if the new tree has a node there (`KeptAt`).
-/

namespace TreeEdit

/-! ## What is not blank stays -/

theorem Span.shiftPast_of_le {s : Span} {n : Nat} (hs : s.start ≤ s.stop) (hn : n ≤ s.start) :
    s.shiftPast n = n := by
  unfold shiftPast size
  split
  · omega
  · rw [if_neg (by omega)]

namespace Text

variable {u v w m r : Text} {c : Char}

/-- A character that does not occur in a part of the text stands before that part or behind it. -/
theorem before_or_behind (h : u ++ v ++ w = m ++ c :: r) (hc : c ∉ v) :
    (∃ k, u = m ++ c :: k ∧ r = k ++ v ++ w) ∨ ∃ k, m = u ++ v ++ k ∧ w = k ++ c :: r := by
  rcases List.append_eq_append_iff.1 h with ⟨k, hm, hw⟩ | ⟨k, huv, hr⟩
  · exact .inr ⟨k, hm, hw⟩
  · -- What is left of `u ++ v` behind `m` is nothing, or starts with the character.
    rcases List.cons_eq_append_iff.1 hr with ⟨rfl, hw⟩ | ⟨k, rfl, rfl⟩
    · exact .inr ⟨[], by simpa using huv.symm, by simpa using hw⟩
    · rcases List.append_eq_append_iff.1 huv with ⟨l, -, rfl⟩ | ⟨l, hu, hl⟩
      · simp at hc
      · rcases List.cons_eq_append_iff.1 hl with ⟨-, rfl⟩ | ⟨l, rfl, rfl⟩
        · simp at hc
        · exact .inl ⟨l, hu, rfl⟩

end Text

namespace Line.Delimits

variable {l : Line} {t m r : Text} {o : Nat} {c : Char}

/-- The removal of a blank line cuts blanks out of the text, around every offset of the line. -/
theorem blank_cut (h : l.Delimits t o) (hb : l.isBlank = true) :
    ∃ u v w, t = u ++ v ++ w ∧ l.removal = ⟨u.size, (u ++ v).size⟩ ∧ l.rest = u ++ w ∧
      v.allBlank = true ∧ u.size ≤ o ∧ o ≤ (u ++ v).size := by
  obtain ⟨u, v, w, ht, hr, hw, hv⟩ := h.removal_cut
  have hsize : l.removal.start ≤ l.start ∧ l.stop ≤ l.removal.stop := by
    unfold removal
    split
    · simp
    · split <;> simp
  have hstart := h.start_le
  have hstop := h.le_stop
  rw [hr] at hsize
  dsimp only at hsize
  have hc : l.content.allBlank = true := hb
  have hn : TreeEdit.isBlank '\n' = true := by decide
  refine ⟨u, v, w, ht, hr, hw.symm, ?_, by omega, by omega⟩
  rcases hv with rfl | rfl | rfl
  · simpa [Text.allBlank, hn] using hc
  · simpa [Text.allBlank, hn] using hc
  · exact hc

/-- A character behind the offset that is not blank stays, and so does all that is behind it. -/
theorem keeps_behind (h : l.Delimits t o) (hb : l.isBlank = true) (ht : t = m ++ c :: r)
    (hc : TreeEdit.isBlank c = false) (ho : o ≤ m.size) :
    ∃ k, l.rest = k ++ c :: r ∧ l.removal.shiftPast m.size = k.size := by
  obtain ⟨u, v, w, hu, hr, hw, hv, hs, -⟩ := h.blank_cut hb
  have hcv : c ∉ v := fun hm => by simp [List.all_eq_true.1 hv c hm] at hc
  have hpos := c.utf8Size_pos
  rcases Text.before_or_behind (hu.symm.trans ht) hcv with ⟨k, rfl, -⟩ | ⟨k, rfl, rfl⟩
  · simp only [Text.size_append, Text.size_cons] at hs
    omega
  · refine ⟨u ++ k, by simp [hw], ?_⟩
    rw [hr, Span.shiftPast, if_pos (by simp)]
    simp only [Text.size_append, Span.size]
    omega

/-- A character before the offset that is not blank stays, and so does all that is before it. -/
theorem keeps_before (h : l.Delimits t o) (hb : l.isBlank = true) (ht : t = m ++ c :: r)
    (hc : TreeEdit.isBlank c = false) (ho : (m ++ [c]).size ≤ o) :
    ∃ k, l.rest = m ++ c :: k ∧ ∀ n ≤ m.size, l.removal.shiftPast n = n := by
  obtain ⟨u, v, w, hu, hr, hw, hv, -, hs⟩ := h.blank_cut hb
  have hcv : c ∉ v := fun hm => by simp [List.all_eq_true.1 hv c hm] at hc
  have hpos := c.utf8Size_pos
  rcases Text.before_or_behind (hu.symm.trans ht) hcv with ⟨k, rfl, -⟩ | ⟨k, rfl, -⟩
  · refine ⟨k ++ w, by simp [hw], fun n hn => ?_⟩
    rw [hr]
    refine Span.shiftPast_of_le (by simp) ?_
    simp only [Text.size_append]
    omega
  · simp only [Text.size_append, Text.size_cons, Text.size_nil] at hs ho
    omega

end Line.Delimits

namespace Engine

variable {P : Parser} {e e' : Engine} {x y z m r f : Text} {c : Char} {b b' : Buffer}
  {clean : Bool} {tracked tracked' : Option Nat} {d : Direction} {span s n : Span}

/-! ## Where the neighbour goes -/

instance (x z : Text) : Decidable (LeftBlank x z) := inferInstanceAs (Decidable (_ ∧ _))

/-- Where an offset of the text is once the span is deleted, and then the line that this leaves
blank if `clean` is set. -/
def relocate (t : Text) (clean : Bool) (span : Span) (o : Nat) : Nat :=
  (t.cut? span.start span.stop).elim o fun (x, _, z) =>
    if clean = true ∧ LeftBlank x z then
      (Text.lineBetween x z).removal.shiftPast (span.shiftPast o)
    else span.shiftPast o

/-- The node lies behind the span that a deletion takes, or before it if the deletion goes
backward. -/
def Beside (span n : Span) : Direction → Prop
  | .forward => span.stop ≤ n.start
  | .backward => n.stop ≤ span.start

/-- The text is not blank on the side of the deletion. -/
def SolidAt (f : Text) : Direction → Prop
  | .forward => ∃ c r, f = c :: r ∧ isBlank c = false
  | .backward => ∃ c r, f = r ++ [c] ∧ isBlank c = false

theorem SolidAt.ne_nil (h : SolidAt f d) : f ≠ [] := by
  rintro rfl
  cases d <;> obtain ⟨c, r, hc, -⟩ := h <;> simp at hc

/-- The removal of the span brings its neighbour to where the span's offsets go. -/
theorem tracked_of_beside (hs : span.start ≤ span.stop) (hn : n.start ≤ n.stop)
    (h : Beside span n d)
    (ht : ((some n).mapM (startAfterRemoval d span)).perform b = (.ok tracked, b)) :
    tracked = some (span.shiftPast n.start) := by
  cases d with
  | forward =>
    have hb : span.stop ≤ n.start := h
    have hle : span.size ≤ n.start := Nat.le_trans (Nat.sub_le _ _) hb
    simp only [Option.mapM_some, startAfterRemoval, if_pos hle] at ht
    rw [Span.shiftPast, if_pos hb]
    exact (Except.ok.inj (Prod.mk.inj ht).1).symm
  | backward =>
    have hb : n.stop ≤ span.start := h
    rw [Span.shiftPast_of_le hs (Nat.le_trans hn hb)]
    exact (Except.ok.inj (Prod.mk.inj ht).1).symm

theorem Tidied.tracked_eq {o : Nat} (ht : Tidied clean x z b b'
      (some ((Span.mk x.size (x ++ y).size).shiftPast o)) tracked') :
    tracked' = some (relocate (x ++ y ++ z) clean ⟨x.size, (x ++ y).size⟩ o) := by
  rw [relocate, Text.cut?_append]
  dsimp only [Option.elim_some]
  rcases ht with ⟨hn, -, rfl⟩ | ⟨hc, hl, rfl, -⟩
  · rw [if_neg hn]
  · rw [if_pos ⟨hc, hl⟩]
    rfl

/-- What is behind the offset and starts with a character that is not blank stays. -/
theorem Tidied.keeps_behind (h : Tidied clean x (m ++ c :: r) b b' (some (x ++ m).size) tracked')
    (hb : b.text = x ++ (m ++ c :: r)) (hc : isBlank c = false) :
    ∃ k, b'.text = k ++ c :: r ∧ tracked' = some k.size := by
  rcases h with ⟨-, rfl, rfl⟩ | ⟨-, hl, rfl, u, v, w, ht, hr, -, rfl⟩
  · exact ⟨x ++ m, by simp [hb], rfl⟩
  · obtain ⟨k, hk, hs⟩ := (Text.delimits_lineBetween x (m ++ c :: r)).keeps_behind hl.2
      (List.append_assoc x m (c :: r)).symm hc (by simp)
    refine ⟨k, ?_, congrArg some hs⟩
    rw [Buffer.splice_text ht, List.append_nil, hr, hk]

/-- What is before the offset and ends with a character that is not blank stays. -/
theorem Tidied.keeps_before {o : Nat} (h : Tidied clean (m ++ c :: r) z b b' (some o) tracked')
    (hb : b.text = m ++ c :: r ++ z) (hc : isBlank c = false) (ho : o ≤ m.size) :
    ∃ k, b'.text = m ++ c :: k ∧ tracked' = some o := by
  rcases h with ⟨-, rfl, rfl⟩ | ⟨-, hl, rfl, u, v, w, ht, hr, -, rfl⟩
  · exact ⟨r ++ z, by simp [hb], rfl⟩
  · obtain ⟨k, hk, hs⟩ := (Text.delimits_lineBetween (m ++ c :: r) z).keeps_before hl.2
      (List.append_assoc m (c :: r) z) hc (by simp)
    refine ⟨k, ?_, congrArg some (hs o ho)⟩
    rw [Buffer.splice_text ht, List.append_nil, hr, hk]

/-- A neighbour that is not blank on the side of the deletion stands where its start was carried
to. -/
theorem slice_neighbour (hb : b.text = x ++ z) (hd : Beside ⟨x.size, (x ++ y).size⟩ n d)
    (hf : Text.slice? (x ++ y ++ z) n.start n.stop = some f) (hs : SolidAt f d)
    (h : Tidied clean x z b b' (some ((Span.mk x.size (x ++ y).size).shiftPast n.start)) tracked') :
    ∃ q, tracked' = some q ∧ b'.text.slice? q (q + f.size) = some f := by
  obtain ⟨u, v, ht, hu, hv⟩ := Text.slice?_eq_some_iff.1 hf
  cases d with
  | forward =>
    obtain ⟨c, r, rfl, hc⟩ := hs
    have hle : (x ++ y).size ≤ n.start := hd
    -- The sibling is in what was behind the deleted span.
    obtain ⟨m, rfl, rfl⟩ := Text.append_of_size_le (ht.trans (List.append_assoc u _ v)) (hu ▸ hle)
    have hshift : (Span.mk x.size (x ++ y).size).shiftPast n.start = (x ++ m).size := by
      rw [Span.shiftPast, if_pos hle, ← hu]
      simp only [Text.size_append, Span.size]
      omega
    rw [hshift] at h
    obtain ⟨k, hk, rfl⟩ := Tidied.keeps_behind h hb hc
    exact ⟨k.size, rfl, Text.slice?_eq_some_iff.2 ⟨k, v, by simp [hk], rfl, by simp⟩⟩
  | backward =>
    obtain ⟨c, r, rfl, hc⟩ := hs
    have hle : n.stop ≤ x.size := hd
    -- The sibling is in what was before the deleted span.
    obtain ⟨m, rfl, -⟩ := Text.append_of_size_le (ht.symm.trans (List.append_assoc x y z))
      (hv ▸ hle)
    have hn : n.start ≤ (u ++ r).size := by simp [← hu]
    rw [Span.shiftPast_of_le (by simp) (by simp [← hu])] at h
    have hx : u ++ (r ++ [c]) ++ m = (u ++ r) ++ c :: m := by simp
    rw [hx] at h hb
    obtain ⟨k, hk, rfl⟩ := Tidied.keeps_before h hb hc hn
    refine ⟨n.start, rfl, Text.slice?_eq_some_iff.2 ⟨u, k, by simp [hk], hu, ?_⟩⟩
    rw [Text.size_append, hu]

/-! ## The neighbour is selected -/

/-- The text stands at `q`. If the tree has a node there that covers just this text, point is at
`q` and the outermost such node is in focus. -/
structure KeptAt (P : Parser) (e : Engine) (f : Text) (q : Nat) : Prop where
  text : e.buffer.text.slice? q (q + f.size) = some f
  selected : ∀ b, (e.tree P).has b = true → (e.tree P).spanAt b = ⟨q, q + f.size⟩ →
    e.buffer.point = q ∧ e.cursor.region = some ⟨q, q + f.size⟩ ∧
    ∃ a, (e.focus P).1 = some a ∧ (e.tree P).IsOutermostOver ⟨q, q + f.size⟩ a

/-- Settling on a text of the buffer, with its size, selects it. -/
theorem keptAt_settle {q : Nat} (ho : (e.tree P).Ordered)
    (hf : e.buffer.text.slice? q (q + f.size) = some f) (hne : f ≠ []) :
    KeptAt P (e.settle P q (some f.size)) f q := by
  refine ⟨by rwa [settle_text], fun b hb hs => ?_⟩
  rw [settle_tree] at hb hs
  obtain ⟨u, v, ht, hu, -⟩ := Text.slice?_eq_some_iff.1 hf
  have hq : e.buffer.text.isBoundary q = true :=
    Text.isBoundary_iff.2 ⟨u, f ++ v, by rw [ht, List.append_assoc], hu⟩
  have hpos : 0 < f.size := Nat.pos_of_ne_zero fun h0 => hne (Text.size_eq_zero_iff.1 h0)
  obtain ⟨a, ha, hsel⟩ := settle_spanning ho hq hpos hb hs
  have hlt : ((e.tree P).spanAt a).start < ((e.tree P).spanAt a).stop := by
    rw [ha.span]
    exact Nat.lt_add_of_pos_right hpos
  rw [hsel]
  refine ⟨?_, congrArg some ha.span, a, focus_select ho ha.has hlt, ha⟩
  have hstart : ((e.tree P).spanAt a).start = q := by rw [ha.span]
  exact (congrArg e.buffer.text.floor hstart).trans (Text.floor_of_isBoundary hq)

/-- A deletion keeps its neighbour, if that is not blank on the side of the deletion. -/
theorem keptAt_of_deleteSpan (hd : Beside span n d)
    (hf : e.buffer.text.slice? n.start n.stop = some f) (hsolid : SolidAt f d)
    (ho : (e'.tree P).Ordered)
    (h : (deleteSpan P d span (some n) clean).perform e = (.ok (.deleted s), e')) :
    KeptAt P e' f (relocate e.buffer.text clean s n.start) := by
  obtain ⟨x, y, z, b, t, t', ht, rfl, rfl, hb, hn, rfl⟩ := deleteSpan_eq_deleted h
  obtain ⟨u, v, -, hu, hv⟩ := Text.slice?_eq_some_iff.1 hf
  obtain rfl := tracked_of_beside (by simp) (by rw [← hu, ← hv]; simp) hd hn
  have htext : (e.buffer.splice x y [] z).text = x ++ z := by
    rw [Buffer.splice_text ht, List.append_nil]
  obtain ⟨q, rfl, hq⟩ := slice_neighbour htext hd (ht ▸ hf) hsolid hb
  have hqe : relocate e.buffer.text clean ⟨x.size, (x ++ y).size⟩ n.start = q := by
    rw [ht]
    exact (Option.some.inj hb.tracked_eq).symm
  have hsize : n.size = f.size := by
    rw [Span.size, ← hu, ← hv, Text.size_append, Nat.add_sub_cancel_left]
  rw [Option.getD_some, Option.map_some, hsize] at ho ⊢
  rw [settle_tree] at ho
  rw [hqe]
  exact keptAt_settle ho hq hsolid.ne_nil

theorem beside_next {t : Tree} (h : t.Ordered) {a b : Address} {count : Nat}
    (hb : t.next? (Tree.nth t.next? (max count 1) a) = some b) :
    Beside (forwardSpan t a count) (t.spanAt b) .forward :=
  h.stop_le_next hb

theorem beside_previous {t : Tree} (h : t.Ordered) {a b : Address} {count : Nat}
    (ha : t.has a = true) (hb : t.previous? (Tree.nth t.previous? (max count 1) a) = some b) :
    Beside (backwardSpan t a count) (t.spanAt b) .backward :=
  h.previous_le_start (Tree.walk_induct (fun _ _ => Tree.has_previous) _ a ha) hb

/-- A deletion that has a sibling behind it, or one before it if it goes backward, selects that
sibling, provided that the sibling's text is not blank on the side of the deletion: the text stands
where its start was carried to, and the outermost node that the new tree has there is in focus. -/
theorem neighbour_selected {a b : Address} {count : Nat} (ho : (e.tree P).Ordered)
    (ha : (e.focus P).1 = some a) (ho' : (e'.tree P).Ordered)
    (hf : e.buffer.text.slice? ((e.tree P).spanAt b).start ((e.tree P).spanAt b).stop = some f) :
    (∀ keep, (deleteForward P count keep).perform e = (.ok (.deleted span), e') →
      (e.tree P).next? (Tree.nth (e.tree P).next? (max count 1) a) = some b → SolidAt f .forward →
      KeptAt P e' f (relocate e.buffer.text (!keep) span ((e.tree P).startAt b))) ∧
    ((deleteBackward P count).perform e = (.ok (.deleted span), e') →
      (e.tree P).previous? (Tree.nth (e.tree P).previous? (max count 1) a) = some b →
      SolidAt f .backward →
      KeptAt P e' f (relocate e.buffer.text true span ((e.tree P).startAt b))) := by
  rw [← focus_buffer (P := P) e] at hf ⊢
  constructor
  · intro keep h hb hs
    rw [perform_deleteForward, ha] at h
    dsimp only at h
    rw [hb, Option.map_some] at h
    exact keptAt_of_deleteSpan (beside_next ho hb) hf hs ho' h
  · intro h hb hs
    rw [perform_deleteBackward, ha] at h
    dsimp only at h
    rw [hb, Option.map_some] at h
    exact keptAt_of_deleteSpan (beside_previous ho (has_of_focus ha) hb) hf hs ho' h

/-- The line of the deleted letter goes, and the letter on the next line or on the one before is
selected. -/
theorem neighbour_selected_indented :
    (∃ e', (deleteForward .letters 1 false).perform indented = (.ok (.deleted ⟨4, 5⟩), e') ∧
      KeptAt .letters e' ['c'] 2 ∧ e'.buffer.point = 2) ∧
    ∃ e', (deleteBackward .letters 1).perform indented = (.ok (.deleted ⟨4, 5⟩), e') ∧
      KeptAt .letters e' ['a'] 0 ∧ e'.buffer.point = 0 := by
  have ho : ∀ e : Engine, (e.tree .letters).Ordered := fun e =>
    (Parser.wellFormed_letters _ _).ordered
  constructor
  · obtain ⟨e', h, hb, hs⟩ : ∃ e', (deleteForward .letters 1 false).perform indented
        = (.ok (.deleted ⟨4, 5⟩), e') ∧ (e'.tree .letters).has [1] = true ∧
        (e'.tree .letters).spanAt [1] = ⟨2, 3⟩ := ⟨_, rfl, rfl, rfl⟩
    have hk : KeptAt .letters e' ['c'] 2 := (neighbour_selected (f := ['c']) (a := [1]) (b := [2])
      (ho _) rfl (ho _) rfl).1 false h rfl ⟨'c', [], rfl, rfl⟩
    exact ⟨e', h, hk, (hk.selected [1] hb hs).1⟩
  · obtain ⟨e', h, hb, hs⟩ : ∃ e', (deleteBackward .letters 1).perform indented
        = (.ok (.deleted ⟨4, 5⟩), e') ∧ (e'.tree .letters).has [0] = true ∧
        (e'.tree .letters).spanAt [0] = ⟨0, 1⟩ := ⟨_, rfl, rfl, rfl⟩
    have hk : KeptAt .letters e' ['a'] 0 := (neighbour_selected (f := ['a']) (a := [1]) (b := [0])
      (ho _) rfl (ho _) rfl).2 h rfl ⟨'a', [], rfl, rfl⟩
    exact ⟨e', h, hk, (hk.selected [0] hb hs).1⟩

end Engine

end TreeEdit
