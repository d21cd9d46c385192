import Mathlib.Data.Nat.Count
import TreeEdit.Proofs.Tree.Way
/-!
# Walks along named children

The named children of a node are numbered from zero, and the number of one is how many
named children come before it (`namedChild?_eq_some_iff`). A step back goes to the number
before, and a step forward to a greater number: to the next one if no named child is
empty, and else it may pass over empty ones.

So a walk forward and as many steps back do not end before the child where they began
(`namedChild?_row_le`), and end at that child if no named child is empty.
`walks_compose_and_return` puts this together with what holds of walks along any step.
-/

namespace TreeEdit.Tree

variable {t : Tree} {a x y : Address} {path : List Address} {i n : Nat}

/-! ## Numbers -/

/-- How many named nodes there are before index `k`. -/
def rank (ts : List Tree) (k : Nat) : Nat := Nat.count (fun j => namedAt ts j = true) k

theorem rank_eq_length (ts : List Tree) (k : Nat) :
    rank ts k = ((List.range k).filter (namedAt ts)).length := by
  simp [rank, Nat.count, List.countP_eq_length_filter]

/-- A named node is found under the number of those before it. -/
theorem getElem?_rank {ts : List Tree} {k : Nat} (hk : namedAt ts k = true) :
    ((List.range ts.length).filter (namedAt ts))[rank ts k]? = some k := by
  have hl : k < ts.length := by
    by_contra hl
    simp [namedAt, List.getElem?_eq_none (Nat.le_of_not_lt hl)] at hk
  obtain ⟨d, hd⟩ := Nat.exists_eq_add_of_lt hl
  rw [hd, Nat.add_assoc, List.range_add, List.filter_append, List.range_succ_eq_map, List.map_cons,
    Nat.add_zero, List.filter_cons_of_pos hk, rank_eq_length,
    List.getElem?_append_right (Nat.le_refl _), Nat.sub_self]
  rfl

/-- The child with the number `n` is the named one with `n` named ones before it. -/
theorem namedChild?_eq_some_iff : t.namedChild? a n = some x ↔
    ∃ k, x = k :: a ∧ namedAt (t.sub a).children k = true ∧ rank (t.sub a).children k = n := by
  simp only [namedChild?, Option.map_eq_some_iff]
  constructor
  · rintro ⟨k, hk, rfl⟩
    have hn : namedAt (t.sub a).children k = true :=
      (List.mem_filter.1 (List.mem_of_getElem? hk)).2
    refine ⟨k, rfl, hn, ?_⟩
    have hd : ((List.range (t.sub a).children.length).filter
        (namedAt (t.sub a).children)).Nodup := List.nodup_range.filter _
    have hlt := (List.getElem?_eq_some_iff.1 (getElem?_rank hn)).1
    exact (List.getElem?_inj hlt hd).1 ((getElem?_rank hn).trans hk.symm)
  · rintro ⟨k, rfl, hk, rfl⟩
    exact ⟨k, getElem?_rank hk, rfl⟩

/-- How many named children a node has. -/
def namedCount (t : Tree) (a : Address) : Nat := (t.sub a).children.countP named

theorem countP_namedAt (ts : List Tree) :
    (List.range ts.length).countP (namedAt ts) = ts.countP named := by
  induction ts with
  | nil => rfl
  | cons u ts ih =>
    have hs : namedAt (u :: ts) ∘ Nat.succ = namedAt ts := rfl
    rw [List.length_cons, List.range_succ_eq_map, List.countP_cons, List.countP_map, hs, ih,
      List.countP_cons]
    rfl

theorem isSome_namedChild? : (t.namedChild? a n).isSome = true ↔ n < t.namedCount a := by
  rw [namedChild?, Option.isSome_map, namedCount, ← countP_namedAt, List.countP_eq_length_filter]
  simp

theorem lt_namedCount (h : t.namedChild? a n = some x) : n < t.namedCount a :=
  isSome_namedChild?.1 (by rw [h]; rfl)

theorem exists_namedChild? (h : n < t.namedCount a) : ∃ x, t.namedChild? a n = some x :=
  Option.isSome_iff_exists.1 (isSome_namedChild?.2 h)

/-! ## One step -/

/-- A step back goes to the child with the number before. -/
theorem previous?_namedChild? (h : t.namedChild? a n = some x) :
    t.previous? x = if n = 0 then none else t.namedChild? a (n - 1) := by
  obtain ⟨k, rfl, hk, rfl⟩ := namedChild?_eq_some_iff.1 h
  have hl : ∀ j, (t.before (j :: a)).length = rank (t.sub a).children j := fun j => by
    simp [before, rank_eq_length, List.filter_reverse]
  have hb := congrArg List.length (t.before_eq (k :: a))
  cases hp : t.previous? (k :: a) with
  | none =>
    rw [hp, Option.elim_none, List.length_nil, hl] at hb
    rw [if_pos hb]
  | some y =>
    obtain ⟨j, rfl, -, hj⟩ := previous?_cons hp
    rw [hp, Option.elim_some, List.length_cons, hl, hl] at hb
    rw [if_neg (by omega), namedChild?_eq_some_iff.2 ⟨j, rfl, hj, by omega⟩]

/-- A step forward goes to a child with a greater number. -/
theorem exists_namedChild?_next (h : t.namedChild? a n = some x) (hy : t.next? x = some y) :
    ∃ m, n < m ∧ t.namedChild? a m = some y := by
  obtain ⟨k, rfl, hk, rfl⟩ := namedChild?_eq_some_iff.1 h
  obtain ⟨j, rfl, ⟨hkj, hl, hn, -⟩, -⟩ := next?_cons_eq_some_iff.1 hy
  have hj : namedAt (t.sub a).children j = true := namedAt_iff.2 ⟨hl, hn⟩
  exact ⟨_, Nat.count_strict_mono hk hkj, namedChild?_eq_some_iff.2 ⟨j, rfl, hj, rfl⟩⟩

/-- No named child of the node is empty. -/
def FullBelow (t : Tree) (a : Address) : Prop :=
  ∀ u ∈ (t.sub a).children, u.named = true → u.span.isEmpty = false

instance (t : Tree) (a : Address) : Decidable (t.FullBelow a) :=
  inferInstanceAs (Decidable (∀ u ∈ (t.sub a).children, _ → _))

/-- If no named child is empty, a step forward goes to the child with the next number. -/
theorem next?_namedChild? (ho : t.Ordered) (hf : t.FullBelow a) (h : t.namedChild? a n = some x) :
    t.next? x = t.namedChild? a (n + 1) := by
  cases hy : t.namedChild? a (n + 1) with
  | some y =>
    obtain ⟨k, rfl, hk, rfl⟩ := namedChild?_eq_some_iff.1 h
    obtain ⟨j, rfl, hj, hr⟩ := namedChild?_eq_some_iff.1 hy
    have hkj : k < j := Nat.lt_of_count_lt_count (Nat.lt_of_lt_of_eq (Nat.lt_succ_self _) hr.symm)
    have hsub := sub_cons_mem (namedAt_iff.1 hj).1
    have hlt : (t.spanAt (j :: a)).start < (t.spanAt (j :: a)).stop := by
      simpa [spanAt, Span.isEmpty] using hf _ hsub (namedAt_iff.1 hj).2
    refine next?_cons_eq_some_iff.2 ⟨j, rfl, ho.canFollow_of_lt hkj hj hlt, fun l hlj hl => ?_⟩
    -- A child between the two would have a number between theirs.
    have hl' : namedAt (t.sub a).children l = true := namedAt_iff.2 ⟨hl.2.1, hl.2.2.1⟩
    have h₁ : rank (t.sub a).children k < rank (t.sub a).children l :=
      Nat.count_strict_mono hk hl.1
    have h₂ : rank (t.sub a).children l < rank (t.sub a).children j :=
      Nat.count_strict_mono hl' hlj
    omega
  | none =>
    cases hz : t.next? x with
    | none => rfl
    | some z =>
      -- A step to a greater number means that there is a next one.
      obtain ⟨m, hm, hzm⟩ := exists_namedChild?_next h hz
      obtain ⟨y, hy'⟩ := exists_namedChild? (Nat.lt_of_le_of_lt hm (lt_namedCount hzm))
      rw [hy] at hy'
      simp at hy'

/-! ## Walks -/

/-- Every step back takes one from the number, down to zero. -/
theorem namedChild?_walk_previous (h : t.namedChild? a i = some x) (n : Nat) :
    t.namedChild? a (i - n) = some (walk t.previous? n x) := by
  induction n generalizing i x with
  | zero => exact h
  | succ n ih =>
    have hp := previous?_namedChild? h
    unfold walk
    by_cases hi : i = 0
    · rw [if_pos hi] at hp
      rw [hp, show i - (n + 1) = i by omega, h]
    · rw [if_neg hi] at hp
      have hc := lt_namedCount h
      obtain ⟨y, hy⟩ := exists_namedChild? (t := t) (a := a) (n := i - 1) (by omega)
      rw [hp, hy, show i - (n + 1) = i - 1 - n by omega]
      exact ih hy

/-- Every step forward adds one or more to the number. -/
theorem namedChild?_row_le (hr : (x :: path).IsChain fun b c => t.next? b = some c)
    (h : t.namedChild? a i = some x) :
    ∃ j, i + path.length ≤ j ∧ t.namedChild? a j = some (path.getLastD x) := by
  induction path generalizing x i with
  | nil => exact ⟨i, Nat.le_refl i, h⟩
  | cons y path ih =>
    obtain ⟨hy, hr⟩ := List.isChain_cons_cons.1 hr
    obtain ⟨m, hm, hym⟩ := exists_namedChild?_next h hy
    obtain ⟨j, hj, hz⟩ := ih hr hym
    refine ⟨j, ?_, by rwa [List.getLastD_cons]⟩
    rw [List.length_cons]
    omega

theorem namedChild?_row (ho : t.Ordered) (hf : t.FullBelow a)
    (hr : (x :: path).IsChain fun b c => t.next? b = some c) (h : t.namedChild? a i = some x) :
    t.namedChild? a (i + path.length) = some (path.getLastD x) := by
  induction path generalizing x i with
  | nil => exact h
  | cons y path ih =>
    obtain ⟨hy, hr⟩ := List.isChain_cons_cons.1 hr
    rw [next?_namedChild? ho hf h] at hy
    rw [List.length_cons, List.getLastD_cons, ← Nat.add_assoc, Nat.add_right_comm]
    exact ih hr hy

/-- A row that is as long as it can be ends at the number that is asked for, or at the last one. -/
theorem Row.index_eq (ho : t.Ordered) (hf : t.FullBelow a) (hr : Row t.next? n x path)
    (h : t.namedChild? a i = some x) : i + path.length = min (i + n) (t.namedCount a - 1) := by
  have hz := namedChild?_row ho hf hr.steps h
  have hlt := lt_namedCount hz
  have hle := hr.length_le
  rcases Nat.lt_or_ge path.length n with hl | hl
  · have hn := hr.ends hl
    rw [next?_namedChild? ho hf hz] at hn
    have hge : ¬ i + path.length + 1 < t.namedCount a := fun hlt' => by
      obtain ⟨y, hy⟩ := exists_namedChild? hlt'
      rw [hn] at hy
      simp at hy
    omega
  · omega

/-- Two walks in a row are one walk, along any step, and the walk to the first node stays. From the
named child with the number `i`, a walk forward goes along a row of children, and as many steps back
lead to a child with the number `i` or a greater one. If no named child is empty, the walk forward
ends at the child with the number that was asked for, or the last one; a walk back ends at the
number that was asked for, or zero; and as many steps back as were taken lead to the child where
they began. -/
theorem walks_compose_and_return (t : Tree) :
    (∀ (step : Address → Option Address) x m n, 1 ≤ m → 1 ≤ n →
      nth step n (nth step m x) = nth step (m + n - 1) x) ∧
    (∀ (step : Address → Option Address) x, nth step 0 x = x ∧ nth step 1 x = x) ∧
    (t.Ordered → ∀ a i x, t.namedChild? a i = some x → ∀ n, ∃ path,
      Row t.next? (n - 1) x path ∧ nth t.next? n x = path.getLastD x ∧
      (∃ j, i ≤ j ∧
        t.namedChild? a j = some (nth t.previous? (path.length + 1) (nth t.next? n x))) ∧
      (t.FullBelow a →
        t.namedChild? a (min (i + max n 1 - 1) (t.namedCount a - 1)) = some (nth t.next? n x) ∧
        t.namedChild? a (i - (max n 1 - 1)) = some (nth t.previous? n x) ∧
        nth t.previous? (path.length + 1) (nth t.next? n x) = x)) := by
  refine ⟨fun step x m n hm hn => ?_, fun step x => ⟨rfl, rfl⟩, fun ho a i x h n => ?_⟩
  · rw [nth, nth, nth, ← walk_add]
    congr 1
    omega
  · obtain ⟨path, hr, hw⟩ := exists_row t.next? (n - 1) x
    have hn : nth t.next? n x = path.getLastD x := hw
    refine ⟨path, hr, hn, ?_, fun hf => ⟨?_, ?_, ?_⟩⟩
    · obtain ⟨j, hj, hz⟩ := namedChild?_row_le hr.steps h
      rw [hn]
      exact ⟨j - path.length, by omega, namedChild?_walk_previous hz _⟩
    · have hi := hr.index_eq ho hf h
      rw [show i + max n 1 - 1 = i + (n - 1) by omega, ← hi, hn]
      exact namedChild?_row ho hf hr.steps h
    · rw [show max n 1 - 1 = n - 1 by omega]
      exact namedChild?_walk_previous h (n - 1)
    · have hz := namedChild?_walk_previous (namedChild?_row ho hf hr.steps h) path.length
      rw [Nat.add_sub_cancel, h] at hz
      rw [hn]
      exact (Option.some.inj hz).symm

/-- Two lists. In the first one an empty node stands behind the second of the named children; in
the second one the only empty node is a token. -/
def gapped : Tree :=
  let leaf (named : Bool) (start stop : Nat) : Tree :=
    .node ⟨"leaf", named, false, start == stop, ⟨start, stop⟩⟩ []
  let list (start stop : Nat) (ts : List Tree) : Tree :=
    .node ⟨"list", true, false, false, ⟨start, stop⟩⟩ ts
  list 0 7 [list 0 4 [leaf true 0 1, leaf true 1 2, leaf true 2 2, leaf false 2 3, leaf true 3 4],
    list 4 7 [leaf true 4 5, leaf false 5 5, leaf false 5 6, leaf true 6 7]]

/-- In the first list a step forward passes over the empty node, and the step back goes to it. In
the second list a walk with a count that is too great goes to the last child and back again. -/
theorem walks_compose_and_return_gapped :
    gapped.Ordered ∧ nth gapped.next? 2 [1, 0] = [4, 0] ∧
    (∃ path j, Row gapped.next? 1 [1, 0] path ∧ 1 ≤ j ∧ gapped.namedChild? [0] j
      = some (nth gapped.previous? (path.length + 1) (nth gapped.next? 2 [1, 0]))) ∧
    nth gapped.previous? 2 [4, 0] = [2, 0] ∧ gapped.namedChild? [0] 2 = some [2, 0] ∧
    gapped.FullBelow [1] ∧ nth gapped.next? 9 [0, 1] = [3, 1] ∧
    (∃ path, Row gapped.next? 8 [0, 1] path ∧
      nth gapped.previous? (path.length + 1) (nth gapped.next? 9 [0, 1]) = [0, 1]) ∧
    nth gapped.next? 9 (nth gapped.next? 3 [0, 1]) = nth gapped.next? 11 [0, 1] := by
  have ho : gapped.Ordered := by decide
  have hf : gapped.FullBelow [1] := by decide
  obtain ⟨hadd, -, hwalk⟩ := walks_compose_and_return gapped
  obtain ⟨path, hr, -, ⟨j, hj, hz⟩, -⟩ := hwalk ho [0] 1 [1, 0] (by decide) 2
  obtain ⟨path', hr', -, -, hfull⟩ := hwalk ho [1] 0 [0, 1] (by decide) 9
  exact ⟨ho, by decide, ⟨path, j, hr, hj, hz⟩, by decide, by decide, hf, by decide,
    ⟨path', hr', (hfull hf).2.2⟩, hadd _ _ 3 9 (by decide) (by decide)⟩

end TreeEdit.Tree
