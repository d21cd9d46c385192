import TreeEdit.Proofs.Looking
import TreeEdit.Proofs.Tree.Way
/-!
# How far a movement goes

A movement of the engine goes as many steps as are asked for, or to the end of the way if
that is nearer (`advanced_move`). What it selects is kept as a reference and looked up
again by the next movement. In a tree without empty nodes that finds the same node, so two
movements in a row end where one movement of all the steps ends (`move_move`).
-/

namespace TreeEdit

theorem Move.times_add (k l : Nat) (m : Move) : times (k + l) m = times k m + times l m := by
  change _ = Move.add _ _
  simp only [times, Move.add, Move.mk.injEq]
  constructor <;> push_cast <;> rw [Int.add_mul]

namespace Engine

variable {P : Parser} {e e' : Engine} {a : Address}

/-! ## One movement -/

/-- The engine has gone `k` steps along the way. -/
structure Advanced (P : Parser) (e e' : Engine) (way : List Address) (k : Nat) : Prop where
  text : e'.buffer.text = e.buffer.text
  revision : e'.buffer.revision = e.buffer.revision
  entries : e'.killRing.entries = e.killRing.entries
  stays : k = 0 → e'.buffer.point = e.buffer.point ∧ (e'.current P).1 = (e.current P).1
  lands : 0 < k → ∃ b, way[k - 1]? = some b ∧ (e'.focus P).1 = some b ∧
    (e'.current P).1 = some (.capture (e.tree P) b e.buffer.revision) ∧
    e'.buffer.point = (e.tree P).startAt b ∧ e'.cursor.region = some ((e.tree P).spanAt b)

/-- A movement changes the cursor, point and what a deletion would share an entry with. -/
theorem move_frame (P : Parser) (e : Engine) (m : Motion) (n : Nat) :
    (e.move P m n).2.buffer.text = e.buffer.text ∧
    (e.move P m n).2.buffer.revision = e.buffer.revision ∧
    (e.move P m n).2.killRing.entries = e.killRing.entries := by
  have hb : (e.focus P).2.breakSequence.buffer = e.buffer := focus_buffer e
  have hk : (e.focus P).2.breakSequence.killRing.entries = e.killRing.entries := by
    rw [breakSequence, focus_killRing]
    rfl
  cases h : (e.focus P).1 with
  | none =>
    rw [move_of_no_focus h, hb, hk]
    exact ⟨rfl, rfl, rfl⟩
  | some a =>
    rw [move_of_focus h]
    split
    · rw [hb, hk]
      exact ⟨rfl, rfl, rfl⟩
    · rw [select, hb, hk]
      exact ⟨rfl, rfl, rfl⟩

theorem move_fst (h : (e.focus P).1 = some a) (m : Motion) (n : Nat) :
    (e.move P m n).1 = m.unit.times (Tree.stepsFrom (m.step (e.tree P)) n a).1 := by
  rw [move_of_focus h]
  split
  · rename_i hk
    rw [hk, Move.times_zero]
  · rfl

theorem advanced_move (hw : (e.tree P).WellFormed e.buffer.text) (hs : (e.tree P).Solid)
    (h : (e.focus P).1 = some a) (m : Motion) (n : Nat) :
    Advanced P e (e.move P m n).2 (m.way (e.tree P) a)
      (min n (m.way (e.tree P) a).length) := by
  obtain ⟨ht, hr, hk⟩ := move_frame P e m n
  have hb : (e.focus P).2.breakSequence.buffer = e.buffer := focus_buffer e
  have hn := Tree.stepsFrom_eq hw.ordered hs (has_of_focus h) m n
  refine ⟨ht, hr, hk, fun h0 => ?_, fun h0 => ?_⟩
  · rw [move_of_focus h, if_pos (by rw [hn, h0])]
    refine ⟨congrArg Buffer.point hb, ?_⟩
    rw [current_breakSequence, focus_eq, current_current]
  · refine ⟨_, Tree.getElem?_way hw.ordered hs (has_of_focus h) h0,
      focus_move hw.ordered hs h m n, ?_⟩
    have htree : (e.focus P).2.breakSequence.tree P = e.tree P := focus_tree e
    rw [move_of_focus h, if_neg (by rw [hn]; omega)]
    generalize (Tree.stepsFrom (m.step (e.tree P)) n a).2 = b
    refine ⟨?_, ?_, rfl⟩
    · rw [← htree, ← hb, current_select]
    · rw [select, hb]
      exact Text.floor_of_isBoundary (hw.fits.start b)

/-! ## Two movements -/

/-- The engines have the same selection, highlight and point. -/
structure SamePlace (e e' : Engine) : Prop where
  current : e'.cursor.current = e.cursor.current
  region : e'.cursor.region = e.cursor.region
  point : e'.buffer.point = e.buffer.point

/-- What a movement leaves selected is there to be found: looking for it changes nothing. -/
theorem focus_move_snd (h : (e.focus P).1 = some a) (m : Motion) (n : Nat) :
    ((e.move P m n).2.focus P).2 = (e.move P m n).2 := by
  have hb : (e.focus P).2.breakSequence.buffer = e.buffer := focus_buffer e
  have ht : (e.focus P).2.breakSequence.tree P = e.tree P := focus_tree e
  rw [move_of_focus h]
  split
  · rw [focus_breakSequence, focus_eq, focus_eq, current_current]
  · rw [← ht, ← hb, focus_eq, current_select]

/-- Two movements of one kind end where one movement of all the steps ends. -/
theorem move_move (hw : (e.tree P).WellFormed e.buffer.text) (hs : (e.tree P).Solid)
    (h : (e.focus P).1 = some a) (m : Motion) (n n' : Nat) :
    (e.move P m n).1 + ((e.move P m n).2.move P m n').1 = (e.move P m (n + n')).1 ∧
    SamePlace (e.move P m (n + n')).2 ((e.move P m n).2.move P m n').2 := by
  have hf := focus_move hw.ordered hs h m n
  have ha := Tree.stepsFrom_add (m.step (e.tree P)) n n' a
  have ht := move_tree P e m n
  obtain ⟨hx, hr, -⟩ := move_frame P e m n
  constructor
  · rw [move_fst h, move_fst hf, move_fst h, ht, ha, Move.times_add]
  · rw [move_of_focus hf, ht, hr, focus_move_snd h]
    split
    · rename_i hk
      -- No further step: one movement would have ended here as well.
      have hn : e.move P m (n + n') = e.move P m n := by
        rw [move_of_focus h, move_of_focus h, ha, hk, Tree.stepsFrom_of_zero hk, Nat.add_zero]
      rw [hn]
      exact ⟨rfl, rfl, rfl⟩
    · rename_i hk
      rw [move_of_focus h, ha, if_neg (by omega)]
      refine ⟨rfl, rfl, ?_⟩
      have hb : (e.focus P).2.breakSequence.buffer = e.buffer := focus_buffer e
      have hb' : (e.move P m n).2.breakSequence.buffer = (e.move P m n).2.buffer := rfl
      simp only [select, Buffer.setPoint, hb, hb', hx]

/-- In a tree without empty nodes, a movement from the node in focus goes along its way: as many
steps as are asked for, or to the end of the way if that is nearer. It returns that many times the
unit and selects the node it gets to; if it gets nowhere, the selection and point stay. The way is
the row of nodes that the step leads to one after the other, up to one where it leads no further. So
two movements in a row add up to one. -/
theorem move_saturates (hw : (e.tree P).WellFormed e.buffer.text) (hs : (e.tree P).Solid)
    (h : (e.focus P).1 = some a) (m : Motion) :
    Tree.Unrolls (m.step (e.tree P)) a (m.way (e.tree P) a) ∧
    (∀ n, (e.move P m n).1 = m.unit.times (min n (m.way (e.tree P) a).length) ∧
      Advanced P e (e.move P m n).2 (m.way (e.tree P) a)
        (min n (m.way (e.tree P) a).length)) ∧
    ∀ n n', (e.move P m n).1 + ((e.move P m n).2.move P m n').1 = (e.move P m (n + n')).1 ∧
      SamePlace (e.move P m (n + n')).2 ((e.move P m n).2.move P m n').2 := by
  have ha := has_of_focus h
  refine ⟨Tree.unrolls_way hw.ordered hs ha m, fun n => ⟨?_, advanced_move hw hs h m n⟩,
    move_move hw hs h m⟩
  rw [move_fst h, Tree.stepsFrom_eq hw.ordered hs ha]

/-- From a letter of the inner list, the way up is the inner list and the whole; the outer list
makes one level with the whole. Of five steps up, two are taken. -/
theorem move_saturates_list :
    listTree.WellFormed (onList 4).buffer.text ∧ listTree.Solid ∧
    ((onList 4).focus fun _ _ => listTree).1 = some [1, 2, 0] ∧
    Motion.way listTree .parent [1, 2, 0] = [[2, 0], []] ∧
    ((onList 4).move (fun _ _ => listTree) .parent 5).1 = ⟨0, -2⟩ ∧
    Advanced (fun _ _ => listTree) (onList 4) ((onList 4).move (fun _ _ => listTree) .parent 5).2
      [[2, 0], []] 2 ∧
    SamePlace ((onList 4).move (fun _ _ => listTree) .parent (1 + 1)).2
      (((onList 4).move (fun _ _ => listTree) .parent 1).2.move
        (fun _ _ => listTree) .parent 1).2 := by
  have hw : listTree.WellFormed (onList 4).buffer.text := by decide
  have hs : listTree.Solid := by decide
  have hf : ((onList 4).focus fun _ _ => listTree).1 = some [1, 2, 0] := by decide
  have hp : Motion.way listTree .parent [1, 2, 0] = [[2, 0], []] := by decide
  obtain ⟨-, hn, ha⟩ := move_saturates (P := fun _ _ => listTree) hw hs hf .parent
  obtain ⟨hm, hr⟩ := hn 5
  exact ⟨hw, hs, hf, hp, hm, hr, (ha 1 1).2⟩

end Engine

end TreeEdit
