import Mathlib.Data.List.Chain
import Mathlib.Data.List.Find
import TreeEdit.Proofs.Tree.Count
import TreeEdit.Proofs.Tree.Travel
/-!
# The way of a movement

The nodes ahead of a node, written down without any steps: the named siblings on one
side, the visible nodes above, or the visible nodes on the chain of first named children.
A step goes to the first node of this way, and from there the rest of it is ahead
(`way_eq`). So a movement of `n` steps goes along the first `n` nodes of the way, as far as
there are (`stepsFrom_eq`), and two movements in a row go as far as one (`stepsFrom_add`).
-/

namespace TreeEdit

namespace Tree

variable {t : Tree} {a b c x : Address} {i n : Nat}

/-! ## Siblings -/

/-- The earlier named siblings, the nearest first. -/
def before (t : Tree) : Address → List Address
  | [] => []
  | i :: a => ((List.range i).reverse.filter (namedAt (t.sub a).children)).map (· :: a)

/-- The later named siblings, the nearest first. -/
def behind (t : Tree) : Address → List Address
  | [] => []
  | i :: a => ((List.range' (i + 1) ((t.sub a).children.length - (i + 1))).filter
      (namedAt (t.sub a).children)).map (· :: a)

/-- Downward, the hits are the first one and those below it. -/
theorem filter_reverse_range (p : Nat → Bool) (n : Nat) : (List.range n).reverse.filter p =
    ((List.range n).reverse.find? p).elim [] fun i => i :: (List.range i).reverse.filter p := by
  induction n with
  | zero => rfl
  | succ n ih =>
    rw [List.range_succ, List.reverse_append, List.reverse_singleton, List.singleton_append]
    by_cases hp : p n = true
    · rw [List.filter_cons_of_pos hp, List.find?_cons_of_pos hp, Option.elim_some]
    · rw [List.filter_cons_of_neg hp, List.find?_cons_of_neg hp, ih]

/-- Upward, the hits are the first one and those above it. -/
theorem filter_range' (p : Nat → Bool) (s n : Nat) : (List.range' s n).filter p =
    ((List.range' s n).find? p).elim [] fun i =>
      i :: (List.range' (i + 1) (s + n - (i + 1))).filter p := by
  induction n generalizing s with
  | zero => rfl
  | succ n ih =>
    rw [List.range'_succ]
    by_cases hp : p s = true
    · rw [List.filter_cons_of_pos hp, List.find?_cons_of_pos hp, Option.elim_some,
        show s + (n + 1) - (s + 1) = n by omega]
    · rw [List.filter_cons_of_neg hp, List.find?_cons_of_neg hp, ih, Nat.add_right_comm,
        Nat.add_assoc]

theorem before_eq (t : Tree) (a : Address) :
    t.before a = (t.previous? a).elim [] fun b => b :: t.before b := by
  cases a with
  | nil => rfl
  | cons i a =>
    rw [before, filter_reverse_range, previous?, previousIndex?]
    cases (List.range i).reverse.find? (namedAt (t.sub a).children) <;> rfl

/-- Without empty nodes, the next sibling is the first named one behind. -/
theorem nextIndex?_eq (ho : t.Ordered) (hs : t.Solid) (i : Nat) (a : Address) :
    nextIndex? (t.sub a).children i (t.spanAt (i :: a)).stop =
      (List.range' (i + 1) ((t.sub a).children.length - (i + 1))).find?
        (namedAt (t.sub a).children) := by
  refine List.find?_congr fun j hj => ?_
  rw [Bool.eq_iff_iff]
  constructor
  · intro hf
    exact namedAt_iff.2 ⟨(any_child.1 hf).1, (canFollow_iff.2 ⟨hj, hf⟩).2.2.1⟩
  · intro hn
    exact (canFollow_iff.1 (ho.canFollow hs (List.mem_range'_1.1 hj).1 hn)).2

theorem behind_eq (ho : t.Ordered) (hs : t.Solid) (a : Address) :
    t.behind a = (t.next? a).elim [] fun b => b :: t.behind b := by
  cases a with
  | nil => rfl
  | cons i a =>
    rw [behind, filter_range', next?, nextIndex?_eq ho hs]
    cases hj : (List.range' (i + 1) ((t.sub a).children.length - (i + 1))).find?
        (namedAt (t.sub a).children) with
    | none => rfl
    | some j =>
      -- What is left of the range when the search ends at `j` is the range behind `j`.
      have hi := List.mem_range'_1.1 (List.mem_of_find?_eq_some hj)
      have hl : i + 1 + ((t.sub a).children.length - (i + 1)) = (t.sub a).children.length := by
        omega
      rw [hl]
      rfl

/-! ## Levels -/

/-- The visible nodes above, the nearest first. -/
def levelsAbove (t : Tree) (a : Address) : List Address := a.tails.tail.filter t.visible

/-- The chain of first named children. -/
def spine (t : Tree) (a : Address) : List Address := (List.range t.count).filterMap (t.chain · a)

/-- The visible nodes on the chain of first named children, the nearest first. -/
def levelsBelow (t : Tree) (a : Address) : List Address := (t.spine a).filter t.visible

theorem levelsAbove_of_nearestAbove (h : t.NearestAbove (i :: a) b) :
    t.levelsAbove (i :: a) = b :: t.levelsAbove b := by
  rw [levelsAbove, List.tails, List.tail_cons]
  induction a generalizing i with
  | nil =>
    obtain rfl := List.suffix_nil.1 (suffix_cons_and_ne.1 ⟨h.above, h.ne⟩)
    rfl
  | cons j a ih =>
    rw [List.tails]
    cases hv : t.visible (j :: a) with
    | true =>
      obtain rfl := h.unique (nearestAbove_parent hv i)
      rw [List.filter_cons_of_pos hv]
      rfl
    | false =>
      rw [List.filter_cons_of_neg (by simp [hv])]
      obtain rfl := h.unique ((t.nearestAbove_visibleParent j a).cons hv i)
      exact ih (t.nearestAbove_visibleParent j a)

theorem has_of_chain (hx : t.has x = true) (h : t.chain n x = some c) :
    t.has c = true ∧ c.length = x.length + n + 1 := by
  induction n generalizing x with
  | zero =>
    obtain ⟨i, rfl, hi, -⟩ := namedChild?_zero_eq_some_iff.1 h
    exact ⟨has_cons.2 ⟨hx, (namedAt_iff.1 hi).1⟩, rfl⟩
  | succ n ih =>
    obtain ⟨b, hb, h⟩ := Option.bind_eq_some_iff.1 h
    obtain ⟨i, rfl, hi, -⟩ := namedChild?_zero_eq_some_iff.1 hb
    obtain ⟨hc, hl⟩ := ih (has_cons.2 ⟨hx, (namedAt_iff.1 hi).1⟩) h
    refine ⟨hc, ?_⟩
    rw [hl, List.length_cons]
    omega

theorem spine_of_none (h : t.namedChild? x 0 = none) : t.spine x = [] := by
  refine List.filterMap_eq_nil_iff.2 fun n _ => ?_
  cases n <;> simp [chain, h]

theorem spine_of_some (hx : t.has x = true) (h : t.namedChild? x 0 = some b) :
    t.spine x = b :: t.spine b := by
  obtain ⟨k, hk⟩ := Nat.exists_eq_add_of_lt t.count_pos
  rw [Nat.zero_add] at hk
  -- The chain from `b` has ended before the last index.
  have he : t.chain k b = none := by
    rw [Option.eq_none_iff_forall_ne_some]
    intro c hc
    obtain ⟨hh, hl⟩ := has_of_chain (has_of_chain (n := 0) hx h).1 hc
    have hlt := length_lt hh
    omega
  have h0 : t.chain 0 x = some b := h
  have hs : (t.chain · x) ∘ Nat.succ = (t.chain · b) := funext fun n => chain_succ h n
  calc t.spine x
    _ = b :: (List.range k).filterMap (t.chain · b) := by
      rw [spine, hk, List.range_succ_eq_map, List.filterMap_cons_some (f := (t.chain · x)) h0,
        List.filterMap_map, hs]
    _ = b :: t.spine b := by
      rw [spine, hk, List.range_succ, List.filterMap_append,
        List.filterMap_cons_none (f := (t.chain · b)) he, List.filterMap_nil, List.append_nil]

theorem levelsBelow_eq (hx : t.has x = true) :
    t.levelsBelow x = (t.visibleChild? x).elim [] fun b => b :: t.levelsBelow b := by
  induction x using below_induct (t := t) with
  | h x ih =>
    rw [visibleChild?_eq, levelsBelow]
    cases hb : t.namedChild? x 0 with
    | none =>
      rw [spine_of_none hb]
      rfl
    | some b =>
      obtain ⟨i, rfl, hi, -⟩ := namedChild?_zero_eq_some_iff.1 hb
      rw [spine_of_some hx hb, Option.bind_some]
      cases hv : t.visible (i :: x) with
      | true =>
        rw [List.filter_cons_of_pos hv]
        rfl
      | false =>
        rw [List.filter_cons_of_neg (by simp [hv])]
        exact ih i (namedAt_iff.1 hi).1 (has_of_chain (n := 0) hx hb).1

end Tree

/-! ## Any movement -/

variable {t : Tree} {a b : Address}

namespace Motion

/-- The nodes ahead of a node, in the order in which steps get to them. -/
def way (t : Tree) : Motion → Address → List Address
  | previous => t.before
  | next => t.behind
  | parent => t.levelsAbove
  | child => t.levelsBelow

/-- Where a step never stays at its node, it does not matter whether that is asked. -/
theorem unroll_of_elim {step : Address → Option Address} {f : Address → List Address}
    (h : f a = (step a).elim [] fun b => b :: f b) :
    f a = (step a).elim [] fun b => if b = a then [] else b :: f b := by
  cases hb : step a with
  | none => rw [h, hb, Option.elim_none, Option.elim_none]
  | some b =>
    rw [hb, Option.elim_some] at h
    rw [Option.elim_some, if_neg, h]
    -- A step that stays would make the list longer than itself.
    rintro rfl
    exact List.cons_ne_self _ _ h.symm

/-- The step goes to the first node of the way, and the rest is the way from there. Nothing is
ahead if there is no step to another node. -/
theorem way_eq (ho : t.Ordered) (hs : t.Solid) (ha : t.has a = true) (m : Motion) :
    m.way t a = (m.step t a).elim [] fun b => if b = a then [] else b :: m.way t b := by
  cases m with
  | previous => exact unroll_of_elim (t.before_eq a)
  | next => exact unroll_of_elim (Tree.behind_eq ho hs a)
  | parent =>
    cases a with
    | nil => simp [way, step, Tree.levelsAbove, Tree.visibleParent, Tree.climb]
    | cons i a =>
      have hn := t.nearestAbove_visibleParent i a
      simp only [way, step, Option.elim_some]
      rw [if_neg hn.ne]
      exact Tree.levelsAbove_of_nearestAbove hn
  | child => exact unroll_of_elim (Tree.levelsBelow_eq ha)

end Motion

/-! ## Several steps -/

namespace Tree

/-- The steps lead from node to node along the path, and none leads on from its end. -/
structure Unrolls (step : Address → Option Address) (a : Address) (path : List Address) : Prop where
  steps : (a :: path).IsChain fun b c => step b = some c ∧ c ≠ b
  ends : ∀ c, step (path.getLastD a) = some c → c = path.getLastD a

theorem unrolls_way (ho : t.Ordered) (hs : t.Solid) (ha : t.has a = true) (m : Motion) :
    Unrolls (m.step t) a (m.way t a) := by
  induction hw : m.way t a generalizing a with
  | nil =>
    refine ⟨List.isChain_singleton a, fun c hc => ?_⟩
    rw [List.getLastD_nil] at hc ⊢
    rw [m.way_eq ho hs ha, hc, Option.elim_some] at hw
    by_contra hne
    simp [hne] at hw
  | cons b path ih =>
    rw [m.way_eq ho hs ha] at hw
    obtain ⟨hb, hne, hp⟩ : m.step t a = some b ∧ b ≠ a ∧ m.way t b = path := by
      cases hc : m.step t a with
      | none => simp [hc] at hw
      | some c =>
        rw [hc, Option.elim_some] at hw
        split at hw
        · simp at hw
        · rename_i hne
          obtain ⟨rfl, hp⟩ := List.cons.inj hw
          exact ⟨rfl, hne, hp⟩
    have hr := ih (Motion.has_step ha hb) hp
    refine ⟨List.isChain_cons_cons.2 ⟨⟨hb, hne⟩, hr.steps⟩, ?_⟩
    rw [List.getLastD_cons]
    exact hr.ends

/-- Up to `n` steps go along the first `n` nodes of the way. -/
theorem stepsFrom_eq (ho : t.Ordered) (hs : t.Solid) (ha : t.has a = true) (m : Motion) (n : Nat) :
    stepsFrom (m.step t) n a = (min n (m.way t a).length, ((m.way t a).take n).getLastD a) := by
  induction n generalizing a with
  | zero => simp [stepsFrom]
  | succ n ih =>
    unfold stepsFrom
    rw [m.way_eq ho hs ha]
    cases hb : m.step t a with
    | none => simp
    | some b =>
      by_cases hne : b = a
      · simp [hne]
      · rw [Option.elim_some, if_neg hne, List.take_succ_cons, List.getLastD_cons, List.length_cons,
          Nat.add_min_add_right]
        simp [hne, ih (Motion.has_step ha hb)]

/-- If any step is taken, the steps end at the last node of the way that they count up to. -/
theorem getElem?_way (ho : t.Ordered) (hs : t.Solid) (ha : t.has a = true) {m : Motion} {n : Nat}
    (h : 0 < min n (m.way t a).length) :
    (m.way t a)[min n (m.way t a).length - 1]? = some (stepsFrom (m.step t) n a).2 := by
  have hl : min n (m.way t a).length - 1 < (m.way t a).length := by omega
  rw [stepsFrom_eq ho hs ha, List.getLastD_eq_getLast?, List.getLast?_eq_getElem?, List.length_take,
    List.getElem?_take_of_lt (by omega), List.getElem?_eq_getElem hl, Option.getD_some]

/-- Where no step leads on, any number of steps stays. -/
theorem stepsFrom_of_stuck {step : Address → Option Address} (h : ∀ b, step a = some b → b = a)
    (n : Nat) : stepsFrom step n a = (0, a) := by
  cases n with
  | zero => rfl
  | succ n =>
    unfold stepsFrom
    cases hb : step a with
    | none => rfl
    | some b => exact if_pos (h b hb)

/-- Steps in two rows are the same steps in one. -/
theorem stepsFrom_add (step : Address → Option Address) (m n : Nat) (a : Address) :
    stepsFrom step (m + n) a =
      ((stepsFrom step m a).1 + (stepsFrom step n (stepsFrom step m a).2).1,
        (stepsFrom step n (stepsFrom step m a).2).2) := by
  induction m generalizing a with
  | zero => simp [stepsFrom]
  | succ m ih =>
    by_cases hs : ∀ b, step a = some b → b = a
    · simp [stepsFrom_of_stuck hs]
    · obtain ⟨b, hb, hne⟩ : ∃ b, step a = some b ∧ b ≠ a := by simpa using hs
      have h (k : Nat) : stepsFrom step (k + 1) a =
          ((stepsFrom step k b).1 + 1, (stepsFrom step k b).2) := by
        simp [stepsFrom, hb, hne]
      rw [Nat.add_right_comm, h, h, ih, Nat.add_right_comm]

end Tree

end TreeEdit
