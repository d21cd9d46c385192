import TreeEdit.Proofs.Totality
/-!
# Copies and deletions

A copy and a forward deletion take the same nodes: the one in focus and its next siblings,
as many as are asked for or as there are. `Covers` says which span that is, by the row of
the nodes, and `Alike` that the two report the same span and record the same text.

What sets them apart is what they leave behind. A copy changes the kill ring only, where its
text is always an entry of its own (`Adds`), also right behind a deletion.
-/

namespace TreeEdit

/-! ## A new entry -/

/-- The ring `r'` has `t` in front of the entries of `r`, of which the oldest may have gone if the
ring was full. -/
def KillRing.Adds (r : KillRing) (t : Text) (r' : KillRing) : Prop :=
  ∃ kept, r'.entries = t :: kept ∧ (kept = r.entries ∨
    r.entries.length = r.capacity ∧ ∃ oldest, r.entries = kept ++ [oldest])

theorem KillRing.adds_copy (r : KillRing) (t : Text) : r.Adds t (r.copy t) := by
  refine ⟨_, rfl, ?_⟩
  split
  · rename_i hf
    rcases List.eq_nil_or_concat r.entries with he | ⟨kept, oldest, he⟩
    · exact .inl (by simp [he])
    · exact .inr ⟨hf, oldest, by simp [he]⟩
  · exact .inl rfl

namespace Engine

variable {P : Parser} {e : Engine} {a : Address}

/-! ## The same nodes -/

/-- The span reaches from the node in focus to the last of its next siblings that `count` nodes in
all get to. -/
def Covers (P : Parser) (e : Engine) (count : Nat) (span : Span) : Prop :=
  ∃ a path, (e.focus P).1 = some a ∧ Tree.Row (e.tree P).next? (max count 1 - 1) a path ∧
    span = ⟨(e.tree P).startAt a, ((e.tree P).spanAt (path.getLastD a)).stop⟩

theorem covers_forwardSpan (ha : (e.focus P).1 = some a) (count : Nat) :
    Covers P e count (forwardSpan (e.tree P) a count) := by
  obtain ⟨path, hr, hw⟩ := Tree.exists_row (e.tree P).next? (max count 1 - 1) a
  exact ⟨a, path, ha, hr, by rw [forwardSpan, Tree.nth, hw]⟩

/-- A greater count gets as far or farther. -/
theorem forwardSpan_mono {t : Tree} (ho : t.Ordered) (a : Address) {m n : Nat} (h : m ≤ n) :
    (forwardSpan t a m).stop ≤ (forwardSpan t a n).stop := by
  have hw := ho.stop_le_walk (max n 1 - max m 1) (Tree.walk t.next? (max m 1 - 1) a)
  rw [← Tree.walk_add, show max m 1 - 1 + (max n 1 - max m 1) = max n 1 - 1 by omega] at hw
  exact hw

/-- From the node in focus, a copy and a deletion take the same part of the text. -/
theorem taken_of_focus (hw : (e.tree P).WellFormed e.buffer.text) (ha : (e.focus P).1 = some a)
    (count : Nat) (keep : Bool) :
    ∃ t e', e.buffer.text.slice? (forwardSpan (e.tree P) a count).start
        (forwardSpan (e.tree P) a count).stop = some t ∧
      e.yank P count = (.yanked (forwardSpan (e.tree P) a count),
        { (e.focus P).2 with killRing := e.killRing.copy t }) ∧
      (deleteForward P count keep).perform e
        = (.ok (.deleted (forwardSpan (e.tree P) a count)), e') ∧
      e'.killRing = e.killRing.kill t .forward := by
  have hsite := site_target hw (has_of_focus ha) count .forward
  obtain ⟨x, y, z, ht, hspan⟩ := hsite.parts
  have hfs : forwardSpan (e.tree P) a count = ⟨x.size, (x ++ y).size⟩ := hspan
  have hs : e.buffer.text.slice? x.size (x ++ y).size = some y :=
    Text.slice?_eq_some_iff.2 ⟨x, z, ht, rfl, rfl⟩
  -- The deletion starts from the engine that has looked for the node, which has the same text.
  have ht' : (e.focus P).2.buffer.text = x ++ y ++ z := by rw [focus_buffer, ht]
  obtain ⟨tracked, hn⟩ := hsite.tracked ((e.focus P).2.buffer.splice x y [] z)
  rw [hspan] at hn
  obtain ⟨b, tracked', -, hp⟩ := deleteSpan_of_tracked (P := P) ht' hn !keep
  have hd : (deleteForward P count keep).perform e = (deleteSpan P .forward ⟨x.size, (x ++ y).size⟩
      (target (e.tree P) a count .forward).2 !keep).perform (e.focus P).2 := by
    rw [perform_deleteForward, ha, ← hspan]
    rfl
  rw [hfs]
  refine ⟨y, _, hs, ?_, hd.trans hp, ?_⟩
  · rw [yank_eq, ha]
    simp only [hfs, hs]
  · rw [settle_killRing, focus_killRing]

/-- A copy and a deletion of the same number of nodes, side by side. -/
structure Alike (P : Parser) (e : Engine) (count : Nat) (keep : Bool) : Prop where
  spans : ∀ s, (e.yank P count).1 = .yanked s ↔
    ((deleteForward P count keep).perform e).1 = .ok (.deleted s)
  nothing : (e.yank P count).1 = .nothing ↔
    ((deleteForward P count keep).perform e).1 = .ok .nothing
  /-- The text that is copied is the text that is deleted. -/
  texts : ∀ s, (e.yank P count).1 = .yanked s →
    ∃ t, e.buffer.text.slice? s.start s.stop = some t ∧
      (e.yank P count).2.killRing = e.killRing.copy t ∧
      ((deleteForward P count keep).perform e).2.killRing = e.killRing.kill t .forward

theorem alike (hw : (e.tree P).WellFormed e.buffer.text) (count : Nat) (keep : Bool) :
    Alike P e count keep := by
  cases ha : (e.focus P).1 with
  | none =>
    have hy : (e.yank P count).1 = .nothing := by rw [yank_eq, ha]
    have hd : ((deleteForward P count keep).perform e).1 = .ok .nothing := by
      rw [perform_deleteForward, ha]
    constructor <;> simp [hy, hd]
  | some a =>
    obtain ⟨t, e', ht, hy, hd, hk⟩ := taken_of_focus hw ha count keep
    refine ⟨fun s => ?_, ?_, fun s hs => ⟨t, ?_, ?_, ?_⟩⟩
    · simp [hy, hd]
    · simp [hy, hd]
    · rw [hy] at hs
      obtain rfl := EditOutcome.yanked.inj hs
      exact ht
    · rw [hy]
    · rw [hd, hk]

/-- A copy changes the kill ring and the cursor. -/
theorem yank_buffer (P : Parser) (e : Engine) (count : Nat) :
    (e.yank P count).2.buffer = e.buffer := by
  rw [yank_eq]
  split
  · exact focus_buffer e
  · dsimp only
    split <;> exact focus_buffer e

/-- A copy and a forward deletion of the same number of nodes report the same span or both report
nothing, and the text that the one copies is the text that the other deletes. Without a node in
focus the copy changes no entry of the ring. Else it takes the node and the row of its next siblings
and adds their text as a new entry; and with a greater count it reaches from the same start as far
or farther. Text, point and revision stay as they are. -/
theorem yank_matches_deletion (hw : (e.tree P).WellFormed e.buffer.text) (count : Nat) :
    (∀ keep, Alike P e count keep) ∧
    ((e.focus P).1 = none ∧ (e.yank P count).1 = .nothing ∧
        (e.yank P count).2.killRing = e.killRing ∨
      ∃ s t, (e.yank P count).1 = .yanked s ∧ Covers P e count s ∧
        e.buffer.text.slice? s.start s.stop = some t ∧
        e.killRing.Adds t (e.yank P count).2.killRing ∧
        ∀ n, count ≤ n → ∃ s', (e.yank P n).1 = .yanked s' ∧ s'.start = s.start ∧
          s.stop ≤ s'.stop) ∧
    (e.yank P count).2.buffer = e.buffer := by
  refine ⟨alike hw count, ?_, yank_buffer P e count⟩
  cases ha : (e.focus P).1 with
  | none =>
    rw [yank_eq, ha]
    exact .inl ⟨rfl, rfl, focus_killRing e⟩
  | some a =>
    obtain ⟨t, _, ht, hy, -, -⟩ := taken_of_focus hw ha count false
    refine .inr ⟨_, t, congrArg Prod.fst hy, covers_forwardSpan ha count, ht, ?_, fun n hn => ?_⟩
    · rw [hy]
      exact e.killRing.adds_copy t
    · obtain ⟨_, _, -, hy', -, -⟩ := taken_of_focus hw ha n false
      exact ⟨_, congrArg Prod.fst hy', rfl, forwardSpan_mono hw.ordered a hn⟩

/-- Right behind a deletion, with a count that is too great: the letter in focus and the one behind
it are taken. The copy has an entry of its own, and the deletion joins the newest one. -/
theorem yank_matches_deletion_indented :
    (indented.tree .letters).WellFormed indented.buffer.text ∧
    (indented.yank .letters 5).1 = .yanked ⟨4, 7⟩ ∧ Covers .letters indented 5 ⟨4, 7⟩ ∧
    (indented.yank .letters 5).2.killRing.entries = [['b', '\n', 'c'], ['x']] ∧
    ((deleteForward .letters 5 true).perform indented).1 = .ok (.deleted ⟨4, 7⟩) ∧
    ((deleteForward .letters 5 true).perform indented).2.killRing.entries
      = [['x', 'b', '\n', 'c']] := by
  have hw : (indented.tree .letters).WellFormed indented.buffer.text :=
    Parser.wellFormed_letters _ _
  obtain ⟨halike, h, -⟩ := yank_matches_deletion hw 5
  have hy : (indented.yank .letters 5).1 = .yanked ⟨4, 7⟩ := rfl
  obtain ⟨-, hn, -⟩ | ⟨s, t, hs, hc, -⟩ := h
  · simp [hy] at hn
  · obtain rfl := EditOutcome.yanked.inj (hy.symm.trans hs)
    exact ⟨hw, hy, hc, rfl, ((halike true).spans _).1 hy, rfl⟩

end Engine

end TreeEdit
