import TreeEdit.Proofs.Engine.Basic
import TreeEdit.Proofs.Tree.Outermost
/-!
# Where settling lands

After an edit the engine settles at an offset: it moves point there, selects a node and
moves point on to the start of that node. So point need not stay at the offset.

`settle_spanning` says that it does stay if a node of the size that is asked for is there,
and that the outermost such node is selected. `settle_point_eq_iff` says when point stays if
no size is asked for: exactly if some node starts at the offset.
-/

namespace TreeEdit.Engine

variable {P : Parser} {e : Engine} {o n : Nat}

@[simp] theorem settle_tree (e : Engine) (o : Nat) (size : Option Nat) :
    (e.settle P o size).tree P = e.tree P := by
  unfold settle
  dsimp only
  split <;> rfl

/-- If a node of the asked size is at the offset, the outermost one is selected. -/
theorem settle_spanning (h : (e.tree P).Ordered) (ho : e.buffer.text.isBoundary o = true)
    (hn : 0 < n) {b : Address} (hb : (e.tree P).has b = true)
    (hs : (e.tree P).spanAt b = ⟨o, o + n⟩) :
    ∃ a, (e.tree P).IsOutermostOver ⟨o, o + n⟩ a ∧
      e.settle P o (some n) = e.select (.capture (e.tree P) a e.buffer.revision) := by
  obtain ⟨a, ha, hout⟩ := Tree.exists_spanning h (Nat.lt_add_of_pos_right hn) hb hs
  refine ⟨a, hout, ?_⟩
  have hp : (e.buffer.setPoint o).point = o := Text.floor_of_isBoundary ho
  have hne : ((e.tree P).spanAt a).isEmpty = false := by
    simp only [hout.span, Span.isEmpty, decide_eq_false_iff_not]
    omega
  have ht : tree P { e with buffer := e.buffer.setPoint o } = e.tree P := rfl
  unfold settle
  dsimp only
  rw [hp, ht, Option.bind_some, ha, Option.getD_some, if_neg (by simp [hne])]
  rfl

/-- Settling brings point to the topmost node at the offset, unless that node is empty. -/
theorem settle_point (hw : (e.tree P).WellFormed e.buffer.text) (o : Nat) :
    (e.settle P o none).buffer.point =
      if ((e.tree P).spanAt ((e.tree P).topmost (e.buffer.text.floor o))).isEmpty
      then e.buffer.text.floor o
      else (e.tree P).startAt ((e.tree P).topmost (e.buffer.text.floor o)) := by
  have hp : (e.buffer.setPoint o).point = e.buffer.text.floor o := rfl
  have ht : tree P { e with buffer := e.buffer.setPoint o } = e.tree P := rfl
  unfold settle
  dsimp only
  rw [hp, ht, Option.bind_none, Option.getD_none]
  split
  · rfl
  · exact Text.floor_of_isBoundary (hw.fits.start _)

/-- Point stays at the offset exactly if that is a boundary and some node starts there, or the whole
tree is empty and nothing is selected. -/
theorem settle_point_eq_iff (hw : (e.tree P).WellFormed e.buffer.text) :
    (e.settle P o none).buffer.point = o ↔ e.buffer.text.isBoundary o = true ∧
      ((e.tree P).StartsAt o ∨ (e.tree P).span.isEmpty = true) := by
  rw [settle_point hw]
  by_cases ho : e.buffer.text.isBoundary o = true
  · rw [Text.floor_of_isBoundary ho, and_iff_right ho]
    split
    · rename_i he
      exact iff_of_true rfl (Tree.startsAt_or_of_isEmpty_topmost hw.ordered he)
    · rename_i hne
      -- A tree that is not empty everywhere is not empty at its root.
      have hroot : ¬ (e.tree P).span.isEmpty = true := fun he =>
        hne (Tree.isEmpty_of_isEmpty_root hw.ordered he _)
      rw [Tree.startAt_topmost, Tree.startAt_nodeAt_iff hw.ordered, or_iff_left hroot]
  · -- Wherever point goes is a boundary.
    refine iff_of_false (fun hp => ho ?_) fun hb => ho hb.1
    rw [← hp]
    split
    · exact Text.isBoundary_floor _ _
    · exact hw.fits.start _

end TreeEdit.Engine
