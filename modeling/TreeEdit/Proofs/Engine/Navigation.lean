import TreeEdit.Proofs.Engine.Basic
import TreeEdit.Proofs.Tree.Travel
/-!
# Movements of the engine

A movement of the engine selects the node that the same movement in the tree ends at,
and leaves the text and the tree alone. If no node is empty the selected node is always
found again, so a row of movements is a travel in the tree (`focus_moveAll`), and what
holds of travels holds of the engine (`navigation_complete`).
-/

namespace TreeEdit

theorem Tree.stepsFrom_of_zero {step : Address → Option Address} {n : Nat} {a : Address}
    (h : (stepsFrom step n a).1 = 0) : (stepsFrom step n a).2 = a := by
  cases n with
  | zero => rfl
  | succ n =>
    unfold stepsFrom at h ⊢
    split
    · rfl
    · rename_i b hb
      split
      · rfl
      · rename_i hne
        simp [hb, hne] at h

namespace Engine

variable {P : Parser} {e : Engine} {a : Address}

theorem current_of_currentAt {r : NodeRef}
    (h : e.cursor.currentAt e.buffer.revision = some r) : e.current P = (some r, e) := by
  unfold current
  rw [h]

/-- The node that was looked for is selected from then on. -/
theorem currentAt_current {r : NodeRef} (h : (e.current P).1 = some r) :
    (e.current P).2.cursor.currentAt e.buffer.revision = some r := by
  cases hc : e.cursor.currentAt e.buffer.revision with
  | some r' =>
    rw [current_of_currentAt hc] at h ⊢
    exact hc.trans h
  | none =>
    unfold current at h ⊢
    rw [hc] at h ⊢
    dsimp only at h ⊢
    split at h
    · simp at h
    · rename_i hn
      obtain rfl := Option.some.inj h
      rw [if_neg hn]
      simp [Cursor.currentAt, Cursor.select, NodeRef.capture]

/-- The node in focus stays the same when it is looked for again. -/
theorem focus_focus (h : (e.focus P).1 = some a) : ((e.focus P).2.focus P).1 = some a := by
  rw [focus_eq] at h
  obtain ⟨r, hr, ha⟩ := Option.bind_eq_some_iff.1 h
  have hc : (e.focus P).2.cursor.currentAt (e.focus P).2.buffer.revision = some r := by
    rw [focus_eq, current_buffer]
    exact currentAt_current hr
  rw [focus_eq, current_of_currentAt hc, focus_tree, focus_buffer]
  exact ha

/-- The kill ring has no part in what is selected. -/
theorem current_breakSequence (P : Parser) (e : Engine) :
    e.breakSequence.current P = ((e.current P).1, (e.current P).2.breakSequence) := by
  unfold current
  cases h : e.cursor.currentAt e.buffer.revision with
  | some r =>
    have h' : e.breakSequence.cursor.currentAt e.breakSequence.buffer.revision = some r := h
    rw [h']
  | none =>
    have h' : e.breakSequence.cursor.currentAt e.breakSequence.buffer.revision = none := h
    rw [h']
    dsimp only
    have ht : e.breakSequence.tree P = e.tree P := rfl
    have hp : e.breakSequence.buffer = e.buffer := rfl
    rw [ht, hp]
    split <;> rfl

theorem focus_breakSequence (P : Parser) (e : Engine) :
    e.breakSequence.focus P = ((e.focus P).1, (e.focus P).2.breakSequence) := by
  rw [focus_eq, focus_eq, current_breakSequence]
  rfl

theorem current_select (P : Parser) (e : Engine) (a : Address) :
    (e.select (.capture (e.tree P) a e.buffer.revision)).current P =
      (some (.capture (e.tree P) a e.buffer.revision),
        e.select (.capture (e.tree P) a e.buffer.revision)) := by
  refine current_of_currentAt ?_
  simp [select, Buffer.setPoint, Cursor.select, Cursor.currentAt, NodeRef.capture]

/-- A node that is not empty is in focus once it is selected. -/
theorem focus_select (ho : (e.tree P).Ordered) (ha : (e.tree P).has a = true)
    (hne : ((e.tree P).spanAt a).start < ((e.tree P).spanAt a).stop) :
    ((e.select (.capture (e.tree P) a e.buffer.revision)).focus P).1 = some a := by
  rw [focus_eq, current_select]
  exact NodeRef.resolve_capture_of_lt ho ha hne _

/-! ## Movements -/

theorem move_of_no_focus (h : (e.focus P).1 = none) (m : Motion) (n : Nat) :
    e.move P m n = (.none, (e.focus P).2.breakSequence) := by
  unfold move
  rw [focus_breakSequence, h]

/-- A movement from the node in focus selects the node that the steps in the tree end at, if there
was a step to take. -/
theorem move_of_focus (h : (e.focus P).1 = some a) (m : Motion) (n : Nat) : e.move P m n =
    if (Tree.stepsFrom (m.step (e.tree P)) n a).1 = 0 then (.none, (e.focus P).2.breakSequence)
    else (m.unit.times (Tree.stepsFrom (m.step (e.tree P)) n a).1,
      (e.focus P).2.breakSequence.select
        (.capture (e.tree P) (Tree.stepsFrom (m.step (e.tree P)) n a).2 e.buffer.revision)) := by
  have ht : (e.focus P).2.breakSequence.tree P = e.tree P := focus_tree e
  have hb : (e.focus P).2.breakSequence.buffer = e.buffer := focus_buffer e
  unfold move
  rw [focus_breakSequence, h]
  dsimp only
  rw [ht, hb]

/-- Asking looks for the node in focus and does nothing else. -/
theorem ask_snd (P : Parser) (e : Engine) (p : Predicate) : (e.ask P p).2 = (e.focus P).2 := by
  unfold ask
  cases e.focus P with
  | mk a e₁ => cases a <;> rfl

@[simp] theorem move_tree (P : Parser) (e : Engine) (m : Motion) (n : Nat) :
    (e.move P m n).2.tree P = e.tree P := by
  have ht : (e.focus P).2.breakSequence.tree P = e.tree P := focus_tree e
  cases h : (e.focus P).1 with
  | none => rw [move_of_no_focus h, ht]
  | some a =>
    rw [move_of_focus h]
    split
    · exact ht
    · exact ht

/-- In a tree without empty nodes a movement brings the node into focus that the steps in the tree
end at. -/
theorem focus_move (ho : (e.tree P).Ordered) (hs : (e.tree P).Solid)
    (h : (e.focus P).1 = some a) (m : Motion) (n : Nat) :
    ((e.move P m n).2.focus P).1 = some (Tree.stepsFrom (m.step (e.tree P)) n a).2 := by
  have ht : (e.focus P).2.breakSequence.tree P = e.tree P := focus_tree e
  have hb : (e.focus P).2.breakSequence.buffer = e.buffer := focus_buffer e
  rw [move_of_focus h]
  split
  · rename_i hk
    rw [focus_breakSequence, Tree.stepsFrom_of_zero hk]
    exact focus_focus h
  · have hh := Tree.has_stepsFrom (has_of_focus h) m n
    rw [← ht] at hh ho hs ⊢
    rw [← hb]
    exact focus_select ho hh (hs.start_lt_stop _)

/-- A row of movements. -/
def moveAll (P : Parser) (e : Engine) (ms : List (Motion × Nat)) : Engine :=
  ms.foldl (fun e m => (e.move P m.1 m.2).2) e

/-- In a regular tree a row of movements is a travel from the node in focus. -/
theorem focus_moveAll (hr : (e.tree P).Regular) (h : (e.focus P).1 = some a)
    (ms : List (Motion × Nat)) :
    ((e.moveAll P ms).focus P).1 = some ((e.tree P).travel a ms) := by
  induction ms generalizing e a with
  | nil => exact h
  | cons m ms ih =>
    have ht := move_tree P e m.1 m.2
    have hf := focus_move hr.ordered hr.solid h m.1 m.2
    have hm := ih (e := (e.move P m.1 m.2).2) (by rwa [ht]) hf
    rwa [ht] at hm

/-- From whatever node is in focus, some row of movements to parents, children and next siblings
brings any visible named node into focus; and from a visible named node no row of movements ever
brings another kind of node into focus. -/
theorem navigation_complete (hr : (e.tree P).Regular) (h : (e.focus P).1 = some a) :
    (∀ x, (e.tree P).has x = true → ((e.tree P).sub x).named = true →
      (e.tree P).visible x = true → ∃ ms : List (Motion × Nat), (∀ m ∈ ms, m.1 ≠ .previous) ∧
        ((e.moveAll P ms).focus P).1 = some x) ∧
    ((e.tree P).visible a = true → ((e.tree P).sub a).named = true →
      ∀ ms : List (Motion × Nat), ∃ b, ((e.moveAll P ms).focus P).1 = some b ∧
        (e.tree P).visible b = true ∧ ((e.tree P).sub b).named = true) := by
  constructor
  · intro x hx hn hv
    obtain ⟨ms, hm, ht⟩ := (Tree.leads_root _ a).trans (Tree.leads_visible hr hx hn hv)
    exact ⟨ms, hm, by rw [focus_moveAll hr h, ht]⟩
  · intro hv hn ms
    obtain ⟨-, hn', hv'⟩ := Tree.travel_shown hr ⟨has_of_focus h, hn, hv⟩ ms
    exact ⟨_, focus_moveAll hr h ms, hv', hn'⟩

/-- The tree of the text `(a (b c))`, with a node around the whole. -/
def listTree : Tree :=
  let leaf (named : Bool) (start stop : Nat) : Tree :=
    .node ⟨"leaf", named, false, false, ⟨start, stop⟩⟩ []
  let list (start stop : Nat) (ts : List Tree) : Tree :=
    .node ⟨"list", true, false, false, ⟨start, stop⟩⟩
      ([leaf false start (start + 1)] ++ ts ++ [leaf false (stop - 1) stop])
  .node ⟨"document", true, false, false, ⟨0, 9⟩⟩
    [list 0 9 [leaf true 1 2, list 3 8 [leaf true 4 5, leaf true 6 7]]]

/-- An engine on that text with nothing selected yet. -/
def onList (point : Nat) : Engine :=
  .ofBuffer ⟨['(', 'a', ' ', '(', 'b', ' ', 'c', ')', ')'], point, 0, .json⟩ .silent

/-- From the last bracket, which has no name, movements get to the last letter. From the inner list
they never get to the outer one, which is not visible. -/
theorem navigation_complete_list :
    listTree.Regular ∧ ((onList 8).focus fun _ _ => listTree).1 = some [3, 0] ∧
    (∃ ms : List (Motion × Nat), (∀ m ∈ ms, m.1 ≠ .previous) ∧
      (((onList 8).moveAll (fun _ _ => listTree) ms).focus fun _ _ => listTree).1
        = some [2, 2, 0]) ∧
    ((onList 3).focus fun _ _ => listTree).1 = some [2, 0] ∧ listTree.visible [0] = false ∧
    ∀ ms : List (Motion × Nat), ∃ b,
      (((onList 3).moveAll (fun _ _ => listTree) ms).focus fun _ _ => listTree).1 = some b ∧
        listTree.visible b = true ∧ (listTree.sub b).named = true :=
  have hr : listTree.Regular := by decide
  ⟨hr, rfl, (navigation_complete (P := fun _ _ => listTree) (e := onList 8) hr rfl).1
      [2, 2, 0] rfl rfl rfl, rfl, rfl,
    (navigation_complete (P := fun _ _ => listTree) (e := onList 3) hr rfl).2 rfl rfl⟩

end Engine

end TreeEdit
