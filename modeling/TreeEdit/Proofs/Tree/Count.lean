import TreeEdit.Proofs.Tree.Visible
/-!
# How many steps there are to take

A way from the root to a node passes by as many nodes as it has indices, and an index
counts siblings, so both are less than the number of nodes (`length_lt`, `index_lt`).
Every step of a movement uses up one of the steps that are `ahead`, and so a movement
takes fewer steps than the tree has nodes, however many are asked for
(`stepsFrom_lt_count`).
-/

namespace TreeEdit

namespace Tree

variable {t : Tree} {a b : Address} {i : Nat}

/-! ## The number of nodes -/

/-- The number of nodes. -/
def count (t : Tree) : Nat := t.labels.length

theorem count_pos (t : Tree) : 0 < t.count := by
  cases t
  simp [count, labels]

theorem length_le_labelsOf (ts : List Tree) : ts.length ≤ (labelsOf ts).length := by
  induction ts with
  | nil => exact Nat.zero_le _
  | cons u ts ih =>
    have hu := u.count_pos
    simp only [count, labelsOf, List.length_append, List.length_cons] at hu ⊢
    omega

theorem length_children_lt (t : Tree) : t.children.length < t.count := by
  cases t with
  | node l ts =>
    have hl := length_le_labelsOf ts
    simp only [count, labels, children, List.length_cons]
    omega

theorem count_lt_of_mem {u : Tree} (h : u ∈ t.children) : u.count < t.count := by
  cases t with
  | node l ts =>
    have hl := (labels_sublist_labelsOf h).length_le
    simp only [count, labels, children, List.length_cons] at hl ⊢
    omega

/-- The nodes above a part of the tree are nodes besides those of the part. -/
theorem length_add_count_le (h : t.has a = true) : a.length + (t.sub a).count ≤ t.count := by
  induction a with
  | nil => simp
  | cons i a ih =>
    obtain ⟨ha, hi⟩ := has_cons.1 h
    have hc := count_lt_of_mem (sub_cons_mem hi)
    have hl := ih ha
    simp only [List.length_cons]
    omega

theorem length_lt (h : t.has a = true) : a.length < t.count := by
  have hl := length_add_count_le h
  have hc := (t.sub a).count_pos
  omega

theorem index_lt (h : t.has (i :: a) = true) : i < t.count := by
  obtain ⟨ha, hi⟩ := has_cons.1 h
  have hl := length_add_count_le ha
  have hc := (t.sub a).length_children_lt
  omega

theorem headD_lt (h : t.has a = true) : a.headD 0 < t.count := by
  cases a with
  | nil => exact t.count_pos
  | cons i a => exact index_lt h

theorem length_lt_of_suffix (h : a <:+ b) (hne : a ≠ b) : a.length < b.length :=
  Nat.lt_of_le_of_ne h.length_le fun hl => hne (h.eq_of_length hl)

end Tree

/-! ## Steps -/

variable {t : Tree} {a b : Address}

namespace Motion

/-- A bound on the number of steps from a node: siblings on that side, or levels. -/
def ahead (t : Tree) : Motion → Address → Nat
  | previous, a => a.headD 0
  | next, a => t.count - 1 - a.headD 0
  | parent, a => a.length
  | child, a => t.count - 1 - a.length

theorem ahead_lt (ha : t.has a = true) (m : Motion) : m.ahead t a < t.count := by
  have hp := t.count_pos
  cases m with
  | previous => exact Tree.headD_lt ha
  | next =>
    simp only [ahead]
    omega
  | parent => exact Tree.length_lt ha
  | child =>
    simp only [ahead]
    omega

/-- A step to another node uses up one of the steps ahead. -/
theorem ahead_step {m : Motion} (ha : t.has a = true) (h : m.step t a = some b) (hne : b ≠ a) :
    m.ahead t b < m.ahead t a := by
  have hb := has_step ha h
  cases m with
  | previous =>
    cases a with
    | nil => simp [step, Tree.previous?] at h
    | cons i a =>
      obtain ⟨j, rfl, hj, -⟩ := Tree.previous?_cons h
      exact hj
  | next =>
    cases a with
    | nil => simp [step, Tree.next?] at h
    | cons i a =>
      obtain ⟨j, rfl, hj, -⟩ := Tree.next?_cons_eq_some_iff.1 h
      have hij := hj.1
      have hl := Tree.index_lt hb
      simp only [ahead, List.headD_cons]
      omega
  | parent =>
    obtain rfl := Option.some.inj h
    exact Tree.length_lt_of_suffix (t.visibleParent_suffix a) hne
  | child =>
    obtain ⟨n, hn, -⟩ := Tree.visibleChild?_eq_some_iff.1 h
    obtain ⟨hs, hn⟩ := Tree.suffix_of_chain hn
    have hl := Tree.length_lt_of_suffix hs hn
    have hc := Tree.length_lt hb
    simp only [ahead]
    omega

end Motion

namespace Tree

theorem stepsFrom_le_ahead (m : Motion) (n : Nat) (ha : t.has a = true) :
    (stepsFrom (m.step t) n a).1 ≤ m.ahead t a := by
  induction n generalizing a with
  | zero => exact Nat.zero_le _
  | succ n ih =>
    unfold stepsFrom
    split
    · exact Nat.zero_le _
    · rename_i b hb
      split
      · exact Nat.zero_le _
      · rename_i hne
        have hk := ih (Motion.has_step ha hb)
        have hs := Motion.ahead_step ha hb hne
        dsimp only
        omega

/-- A movement takes fewer steps than there are nodes. -/
theorem stepsFrom_lt_count (m : Motion) (n : Nat) (ha : t.has a = true) :
    (stepsFrom (m.step t) n a).1 < t.count :=
  Nat.lt_of_le_of_lt (stepsFrom_le_ahead m n ha) (Motion.ahead_lt ha m)

end Tree

end TreeEdit
