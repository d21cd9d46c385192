import Mathlib.Data.List.Chain
import TreeEdit.Proofs.Tree.Steps
/-!
# Steps between siblings

What the steps to the previous and to the next sibling find, said by the indices of
the children. In an ordered tree an earlier child stops before a later one starts, so
a step forward never goes back in the text, nor a step back forward; and what one step
keeps, a walk of several steps keeps (`walk_induct`, `Ordered.stop_le_walk`,
`Ordered.walk_start_le`). A walk that is long enough ends where no further step is
possible, and `exists_row` gives the nodes it visits.
-/

namespace TreeEdit.Tree

variable {t : Tree} {a b : Address} {i j : Nat}

/-! ## Children by index -/

theorem any_child {p : Tree → Bool} : ((t.sub a).children[j]?).any p = true ↔
    j < (t.sub a).children.length ∧ p (t.sub (j :: a)) = true := by
  by_cases hj : j < (t.sub a).children.length
  · simp [sub_cons_of_lt hj, hj]
  · simp [hj]

theorem namedAt_iff : namedAt (t.sub a).children j = true ↔
    j < (t.sub a).children.length ∧ (t.sub (j :: a)).named = true := any_child

/-- Of two children, the earlier one stops before the later one starts. -/
theorem Ordered.stop_le_start (h : t.Ordered) (hij : i < j)
    (hj : j < (t.sub a).children.length) :
    (t.spanAt (i :: a)).stop ≤ (t.spanAt (j :: a)).start := by
  have hi : i < (t.sub a).children.length := by omega
  rw [spanAt, spanAt, sub_cons_of_lt hi, sub_cons_of_lt hj]
  exact List.pairwise_iff_getElem.1 (h.sub a).children.pairwise i j hi hj hij

/-! ## One step -/

/-- A step back goes to an earlier named child of the same node. -/
theorem previous?_cons (h : t.previous? (i :: a) = some b) :
    ∃ j, b = j :: a ∧ j < i ∧ namedAt (t.sub a).children j = true := by
  obtain ⟨j, hj, rfl⟩ := Option.map_eq_some_iff.1 h
  exact ⟨j, rfl, by simpa using List.mem_of_find?_eq_some hj, List.find?_some hj⟩

theorem isSome_previous? : (t.previous? (i :: a)).isSome = true ↔
    ∃ j < i, namedAt (t.sub a).children j = true := by
  simp [previous?, previousIndex?, List.find?_isSome]

/-- The step to the next sibling can go to the child at `j`. -/
def CanFollow (t : Tree) (a : Address) (i j : Nat) : Prop :=
  i < j ∧ j < (t.sub a).children.length ∧ (t.sub (j :: a)).named = true ∧
    (t.spanAt (i :: a)).stop < (t.spanAt (j :: a)).stop

theorem canFollow_iff : t.CanFollow a i j ↔ j ∈ List.range' (i + 1)
      ((t.sub a).children.length - (i + 1)) ∧
    (((t.sub a).children[j]?).any fun u =>
      u.named && decide ((t.spanAt (i :: a)).stop < u.span.stop)) = true := by
  rw [any_child, Bool.and_eq_true, decide_eq_true_eq, List.mem_range'_1]
  constructor
  · rintro ⟨hij, hl, hn, hs⟩
    exact ⟨by omega, hl, hn, hs⟩
  · rintro ⟨hr, hl, hn, hs⟩
    exact ⟨hr.1, hl, hn, hs⟩

/-- The step forward goes to the first node that it can go to. -/
theorem next?_cons_eq_some_iff : t.next? (i :: a) = some b ↔
    ∃ j, b = j :: a ∧ t.CanFollow a i j ∧ ∀ k < j, ¬ t.CanFollow a i k := by
  simp only [next?, nextIndex?, Option.map_eq_some_iff, List.find?_range'_eq_some]
  constructor
  · rintro ⟨j, ⟨hj, hm, hk⟩, rfl⟩
    refine ⟨j, rfl, canFollow_iff.2 ⟨hm, hj⟩, fun k hkj hf => ?_⟩
    have hn := hk k hf.1 hkj
    rw [(canFollow_iff.1 hf).2] at hn
    simp at hn
  · rintro ⟨j, rfl, hj, hk⟩
    obtain ⟨hm, hs⟩ := canFollow_iff.1 hj
    refine ⟨j, ⟨hs, hm, fun k hik hkj => ?_⟩, rfl⟩
    rw [Bool.not_eq_true', ← Bool.not_eq_true]
    intro hs'
    have hl := hj.2.1
    exact hk k hkj (canFollow_iff.2 ⟨List.mem_range'_1.2 (by omega), hs'⟩)

theorem isSome_next? : (t.next? (i :: a)).isSome = true ↔ ∃ j, t.CanFollow a i j := by
  simp only [next?, nextIndex?, Option.isSome_map, List.find?_isSome, canFollow_iff]

/-- The step forward can go to every later named child that is not empty. -/
theorem Ordered.canFollow_of_lt (h : t.Ordered) (hij : i < j)
    (hj : namedAt (t.sub a).children j = true)
    (hs : (t.spanAt (j :: a)).start < (t.spanAt (j :: a)).stop) : t.CanFollow a i j := by
  obtain ⟨hl, hn⟩ := namedAt_iff.1 hj
  have hle := h.stop_le_start hij hl
  exact ⟨hij, hl, hn, by omega⟩

theorem Ordered.stop_le_next (h : t.Ordered) (hb : t.next? a = some b) :
    (t.spanAt a).stop ≤ (t.spanAt b).start := by
  cases a with
  | nil => simp [next?] at hb
  | cons i a =>
    obtain ⟨j, rfl, hj, -⟩ := next?_cons_eq_some_iff.1 hb
    exact h.stop_le_start hj.1 hj.2.1

theorem Ordered.previous_le_start (h : t.Ordered) (ha : t.has a = true)
    (hb : t.previous? a = some b) : (t.spanAt b).stop ≤ (t.spanAt a).start := by
  cases a with
  | nil => simp [previous?] at hb
  | cons i a =>
    obtain ⟨j, rfl, hj, -⟩ := previous?_cons hb
    exact h.stop_le_start hj (has_cons.1 ha).2

/-! ## Walks -/

/-- What every step keeps holds at the end of a walk. -/
theorem walk_induct {step : Address → Option Address} {M : Address → Prop}
    (hs : ∀ a b, M a → step a = some b → M b) (n : Nat) (a : Address) (ha : M a) :
    M (walk step n a) := by
  induction n generalizing a with
  | zero => exact ha
  | succ n ih =>
    unfold walk
    split
    · exact ha
    · rename_i b hb
      exact ih b (hs a b ha hb)

/-- A walk goes on from where it has got to. -/
theorem walk_add (step : Address → Option Address) (m n : Nat) (a : Address) :
    walk step (m + n) a = walk step n (walk step m a) := by
  induction m generalizing a with
  | zero => rw [Nat.zero_add, walk]
  | succ m ih =>
    rw [Nat.add_right_comm]
    cases hb : step a with
    | none => cases n <;> simp [walk, hb]
    | some b => simp [walk, hb, ih]

/-- Steps lead from `a` along the path, `n` of them or as many as there are. -/
structure Row (step : Address → Option Address) (n : Nat) (a : Address) (path : List Address) :
    Prop where
  steps : (a :: path).IsChain fun b c => step b = some c
  length_le : path.length ≤ n
  ends : path.length < n → step (path.getLastD a) = none

/-- A walk goes to the end of a row. -/
theorem exists_row (step : Address → Option Address) (n : Nat) (a : Address) :
    ∃ path, Row step n a path ∧ walk step n a = path.getLastD a := by
  induction n generalizing a with
  | zero => exact ⟨[], ⟨.singleton a, Nat.le_refl 0, fun h => absurd h (Nat.lt_irrefl 0)⟩, rfl⟩
  | succ n ih =>
    unfold walk
    cases hb : step a with
    | none => exact ⟨[], ⟨.singleton a, Nat.zero_le _, fun _ => hb⟩, rfl⟩
    | some b =>
      obtain ⟨path, ⟨hs, hl, he⟩, hw⟩ := ih b
      refine ⟨b :: path, ⟨List.isChain_cons_cons.2 ⟨hb, hs⟩, ?_, fun h => ?_⟩, ?_⟩
      · simpa using hl
      · rw [List.getLastD_cons]
        exact he (by simpa using h)
      · rw [List.getLastD_cons]
        exact hw

/-- The nodes of a walk over next siblings start no earlier than the first. -/
theorem Ordered.start_le_walk (h : t.Ordered) (n : Nat) (a : Address) :
    (t.spanAt a).start ≤ (t.spanAt (walk t.next? n a)).start := by
  refine walk_induct (M := fun b => (t.spanAt a).start ≤ (t.spanAt b).start) ?_ n a (Nat.le_refl _)
  intro b c hb hc
  have hbc := h.stop_le_next hc
  have hle := h.spanAt_le b
  omega

/-- The nodes of a walk over next siblings stop later and later. -/
theorem Ordered.stop_le_walk (h : t.Ordered) (n : Nat) (a : Address) :
    (t.spanAt a).stop ≤ (t.spanAt (walk t.next? n a)).stop := by
  refine walk_induct (M := fun b => (t.spanAt a).stop ≤ (t.spanAt b).stop) ?_ n a (Nat.le_refl _)
  intro b c hb hc
  have hbc := h.stop_le_next hc
  have hle := h.spanAt_le c
  omega

/-- The nodes of a walk over previous siblings start earlier and earlier. -/
theorem Ordered.walk_start_le (h : t.Ordered) (n : Nat) (ha : t.has a = true) :
    (t.spanAt (walk t.previous? n a)).start ≤ (t.spanAt a).start := by
  refine (walk_induct
    (M := fun b => t.has b = true ∧ (t.spanAt b).start ≤ (t.spanAt a).start) ?_ n a
    ⟨ha, Nat.le_refl _⟩).2
  rintro b c ⟨hb, hle⟩ hc
  have hbc := h.previous_le_start hb hc
  have hcc := h.spanAt_le c
  exact ⟨has_previous hb hc, by omega⟩

/-- The nodes of a walk over previous siblings stop no later than the first. -/
theorem Ordered.walk_stop_le (h : t.Ordered) (n : Nat) (ha : t.has a = true) :
    (t.spanAt (walk t.previous? n a)).stop ≤ (t.spanAt a).stop := by
  refine (walk_induct
    (M := fun b => t.has b = true ∧ (t.spanAt b).stop ≤ (t.spanAt a).stop) ?_ n a
    ⟨ha, Nat.le_refl _⟩).2
  rintro b c ⟨hb, hle⟩ hc
  have hbc := h.previous_le_start hb hc
  have hbb := h.spanAt_le b
  exact ⟨has_previous hb hc, by omega⟩

end TreeEdit.Tree
