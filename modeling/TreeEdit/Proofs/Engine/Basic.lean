import TreeEdit.Engine.Basic
import TreeEdit.Proofs.Buffer
import TreeEdit.Proofs.NodeRef
/-!
# What selecting leaves alone

Looking for the selected node and settling on a node change the cursor and point.
The text, the revision and the kill ring stay as they are. Whatever is in focus is a node
of the tree (`has_of_focus`).
-/

namespace TreeEdit.Engine

variable {P : Parser} (e : Engine)

theorem perform_onBuffer {e : Engine} {α : Type} {a : Action Buffer α} {r : Except Failure α}
    {b : Buffer} (h : a.perform e.buffer = (r, b)) :
    (onBuffer a).perform e = (r, { e with buffer := b }) := by
  unfold onBuffer
  rw [Action.perform_onPart, h]

/-- An edit from outside has the answer that the buffer gives. If it is rejected the engine is as
before, and else nothing is selected any more. -/
theorem perform_applyExternal (e : Engine) (edit : Edit) : (applyExternal edit).perform e =
    match (Buffer.apply edit).perform e.buffer with
    | (.ok r, b) => (.ok r, { e with buffer := b }.breakSequence.invalidate)
    | (.error f, _) => (.error f, e) := by
  unfold applyExternal
  cases hb : (Buffer.apply edit).perform e.buffer with
  | mk r b =>
    cases r with
    | error f =>
      obtain ⟨rfl, -⟩ := Buffer.apply_eq_error hb
      rw [Action.perform_bind_of_error (perform_onBuffer hb)]
    | ok r =>
      rw [Action.perform_bind_of_ok (perform_onBuffer hb),
        Action.perform_bind_of_ok (Action.perform_modify _ _)]
      rfl

@[simp] theorem current_buffer : (e.current P).2.buffer = e.buffer := by
  unfold current
  split
  · rfl
  · dsimp only
    split <;> rfl

@[simp] theorem current_killRing : (e.current P).2.killRing = e.killRing := by
  unfold current
  split
  · rfl
  · dsimp only
    split <;> rfl

@[simp] theorem current_tree : (e.current P).2.tree P = e.tree P := by
  rw [tree, tree, current_buffer]

/-- The node in focus is the one that the selected reference resolves to. -/
theorem focus_eq : e.focus P =
    ((e.current P).1.bind fun r => r.resolve (e.tree P) e.buffer.revision, (e.current P).2) := by
  simp [focus]

@[simp] theorem focus_buffer : (e.focus P).2.buffer = e.buffer := by rw [focus_eq, current_buffer]

@[simp] theorem focus_killRing : (e.focus P).2.killRing = e.killRing := by
  rw [focus_eq, current_killRing]

@[simp] theorem focus_tree : (e.focus P).2.tree P = e.tree P := by rw [focus_eq, current_tree]

theorem has_of_focus {e : Engine} {a : Address} (h : (e.focus P).1 = some a) :
    (e.tree P).has a = true := by
  rw [focus_eq] at h
  obtain ⟨r, -, hr⟩ := Option.bind_eq_some_iff.1 h
  exact NodeRef.has_of_resolve hr

@[simp] theorem settle_text (o : Nat) (n : Option Nat) :
    (e.settle P o n).buffer.text = e.buffer.text := by
  unfold settle
  dsimp only
  split <;> rfl

@[simp] theorem settle_revision (o : Nat) (n : Option Nat) :
    (e.settle P o n).buffer.revision = e.buffer.revision := by
  unfold settle
  dsimp only
  split <;> rfl

@[simp] theorem settle_killRing (o : Nat) (n : Option Nat) :
    (e.settle P o n).killRing = e.killRing := by
  unfold settle
  dsimp only
  split <;> rfl

end TreeEdit.Engine
