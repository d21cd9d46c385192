import Mathlib.Data.Nat.Find
import TreeEdit.Proofs.Tree.Siblings
import TreeEdit.Proofs.Tree.Steps
/-!
# The tree of visible nodes

Climbing tests a node and its parent in turn and treats the node where it began apart;
going down follows the first named children. Both are steps in the tree of visible
nodes: `nearestAbove_visibleParent` says that climbing ends at the nearest visible node
above, and `visibleChild?_eq_some_iff` that going down ends at the first visible node of
the chain of first named children. `vertical_steps` puts the two together.
-/

namespace TreeEdit.Tree

variable {t : Tree} {a b c x : Address}

/-! ## Climbing -/

/-- The node at `b` is visible and lies above the node at `x`, and no visible node lies between. -/
structure NearestAbove (t : Tree) (x b : Address) : Prop where
  visible : t.visible b = true
  above : b <:+ x
  ne : b ≠ x
  nearest : ∀ c, c <:+ x → c ≠ x → t.visible c = true → c <:+ b

/-- The nodes above a node are its parent and the nodes above that. -/
theorem suffix_cons_and_ne {i : Nat} : c <:+ i :: a ∧ c ≠ i :: a ↔ c <:+ a := by
  constructor
  · rintro ⟨hs, hne⟩
    exact (List.suffix_cons_iff.1 hs).resolve_left hne
  · intro h
    refine ⟨h.trans (List.suffix_cons i a), ?_⟩
    rintro rfl
    exact not_cons_suffix i a h

theorem suffix_antisymm (h : a <:+ b) (h' : b <:+ a) : a = b :=
  h.eq_of_length (Nat.le_antisymm h.length_le h'.length_le)

theorem NearestAbove.unique (h : t.NearestAbove x a) (h' : t.NearestAbove x b) : a = b :=
  suffix_antisymm (h'.nearest a h.above h.ne h.visible) (h.nearest b h'.above h'.ne h'.visible)

/-- A visible parent is the nearest visible node above. -/
theorem nearestAbove_parent (h : t.visible a = true) (i : Nat) : t.NearestAbove (i :: a) a := by
  obtain ⟨hs, hne⟩ := suffix_cons_and_ne.2 (List.suffix_refl a)
  exact ⟨h, hs, hne, fun c hc hc' _ => suffix_cons_and_ne.1 ⟨hc, hc'⟩⟩

/-- A parent that is not visible is passed by. -/
theorem NearestAbove.cons (h : t.NearestAbove a b) (ha : t.visible a = false) (i : Nat) :
    t.NearestAbove (i :: a) b := by
  obtain ⟨hs, hne⟩ := suffix_cons_and_ne.2 h.above
  refine ⟨h.visible, hs, hne, fun c hc hc' hv => ?_⟩
  have hca : c <:+ a := suffix_cons_and_ne.1 ⟨hc, hc'⟩
  refine h.nearest c hca (fun he => ?_) hv
  rw [he, ha] at hv
  simp at hv

theorem visible_of_hasSibling (h : t.hasSibling a = true) : t.visible a = true := by
  cases a with
  | nil => rfl
  | cons i a => simp [visible, h]

/-- What the climb does with a parent: it ends there if the parent has siblings, and else goes on
from the parent. Either way it ends at the nearest visible node above the child. -/
theorem nearestAbove_climb (i : Nat) (h : a.length < x.length) :
    t.NearestAbove (i :: a) (if t.hasSibling a then a else t.climb x a) := by
  induction a generalizing i with
  | nil => exact nearestAbove_parent rfl i
  | cons j a ih =>
    by_cases hs : t.hasSibling (j :: a) = true
    · rw [if_pos hs]
      exact nearestAbove_parent (visible_of_hasSibling hs) i
    · rw [if_neg hs]
      have hne : j :: a ≠ x := by
        rintro rfl
        simp at h
      unfold climb
      by_cases hb : t.startAt (j :: a) ≠ t.startAt a
      · rw [if_pos ⟨hb, hne⟩]
        exact nearestAbove_parent (by simp [visible, hb]) i
      · -- Neither siblings nor a start of its own: the climb passes this node.
        rw [if_neg fun hc => hb hc.1]
        have hv : t.visible (j :: a) = false := by
          simp only [visible, Bool.or_eq_false_iff, decide_eq_false_iff_not]
          exact ⟨by simpa using hs, hb⟩
        exact (ih j (by simp at h; omega)).cons hv i

/-- From any node but the root, climbing ends at the nearest visible node above it. -/
theorem nearestAbove_visibleParent (t : Tree) (i : Nat) (a : Address) :
    t.NearestAbove (i :: a) (t.visibleParent (i :: a)) := by
  unfold visibleParent climb
  rw [if_neg fun h => h.2 rfl]
  exact nearestAbove_climb i (by simp)

/-! ## Going down -/

/-- What holds of a node if it holds of its children holds of all nodes. -/
theorem below_induct {M : Address → Prop}
    (h : ∀ a, (∀ i < (t.sub a).children.length, M (i :: a)) → M a) (a : Address) : M a :=
  h a fun i hi =>
    have : sizeOf (t.sub (i :: a)) < sizeOf (t.sub a) := by
      have hm := List.sizeOf_lt_of_mem (sub_cons_mem hi)
      cases hs : t.sub a
      rw [hs] at hm
      simp only [children, node.sizeOf_spec] at hm ⊢
      omega
    below_induct h (i :: a)
termination_by sizeOf (t.sub a)

/-- The first named child is the named child with the least index. -/
theorem namedChild?_zero_eq_some_iff : t.namedChild? a 0 = some b ↔
    ∃ i, b = i :: a ∧ namedAt (t.sub a).children i = true ∧
      ∀ j < i, namedAt (t.sub a).children j = false := by
  simp only [namedChild?, ← List.head?_eq_getElem?, List.head?_filter, Option.map_eq_some_iff,
    List.find?_range_eq_some, Bool.not_eq_true']
  constructor
  · rintro ⟨i, ⟨hi, -, hj⟩, rfl⟩
    exact ⟨i, rfl, hi, hj⟩
  · rintro ⟨i, rfl, hi, hj⟩
    exact ⟨i, ⟨hi, List.mem_range.2 (namedAt_iff.1 hi).1, hj⟩, rfl⟩

/-- Among the children from index `i` on, the search looks at the first named one only. -/
theorem visibleAmong_eq (us : List Tree) (i : Nat) (hd : (t.sub a).children.drop i = us) :
    visibleAmong t us i a = ((List.range' i us.length).find? (namedAt (t.sub a).children)).bind
      fun j => if t.visible (j :: a) then some (j :: a) else t.visibleChild? (j :: a) := by
  induction us generalizing i with
  | nil => rfl
  | cons u us ih =>
    obtain ⟨hi, hu, hd'⟩ := drop_children hd
    rw [visibleAmong, List.length_cons, List.range'_succ, List.find?_cons]
    by_cases hn : u.named = true
    · have hn' : namedAt (t.sub a).children i = true := namedAt_iff.2 ⟨hi, hu ▸ hn⟩
      rw [if_pos hn, hn']
      simp only [Option.bind_some, visibleChild?, hu]
    · have hn' : namedAt (t.sub a).children i = false := by
        rw [← Bool.not_eq_true, namedAt_iff, hu]
        exact fun h => hn h.2
      rw [if_neg hn, hn', ih (i + 1) hd']

/-- Going down stops at the first named child if it is visible, and goes on from there if not. -/
theorem visibleChild?_eq (t : Tree) (a : Address) : t.visibleChild? a =
    (t.namedChild? a 0).bind fun c => if t.visible c then some c else t.visibleChild? c := by
  have hb : t.visibleChild? a = visibleAmong t (t.sub a).children 0 a := by
    unfold visibleChild?
    cases t.sub a
    rfl
  rw [hb, visibleAmong_eq (t.sub a).children 0 rfl, namedChild?, ← List.head?_eq_getElem?,
    List.head?_filter, Option.bind_map, List.range_eq_range']
  rfl

/-- The chain of first named children below a node, counted from zero. -/
def chain (t : Tree) : Nat → Address → Option Address
  | 0, x => t.namedChild? x 0
  | n + 1, x => (t.namedChild? x 0).bind (t.chain n)

/-- The chain below a node goes on as the chain below its first named child. -/
theorem chain_succ (h : t.namedChild? x 0 = some b) (n : Nat) :
    t.chain (n + 1) x = t.chain n b := by
  rw [chain, h, Option.bind_some]

/-- The node at `c` is the first visible one on the chain below `x`. -/
def FirstBelow (t : Tree) (x c : Address) : Prop :=
  ∃ n, t.chain n x = some c ∧ t.visible c = true ∧
    ∀ m < n, ∀ b, t.chain m x = some b → t.visible b = false

/-- A visible first named child is the first visible node. -/
theorem firstBelow_iff_eq (h : t.namedChild? x 0 = some b) (hv : t.visible b = true) :
    t.FirstBelow x c ↔ b = c := by
  constructor
  · rintro ⟨n, hn, -, hm⟩
    cases n with
    | zero => exact Option.some.inj (h.symm.trans hn)
    | succ n =>
      have := hm 0 (by omega) b h
      rw [hv] at this
      simp at this
  · rintro rfl
    exact ⟨0, h, hv, fun m hm => by omega⟩

/-- A first named child that is not visible makes no difference. -/
theorem firstBelow_iff (h : t.namedChild? x 0 = some b) (hv : t.visible b = false) :
    t.FirstBelow x c ↔ t.FirstBelow b c := by
  constructor
  · rintro ⟨n, hn, hc, hm⟩
    cases n with
    | zero =>
      obtain rfl : b = c := Option.some.inj (h.symm.trans hn)
      rw [hv] at hc
      simp at hc
    | succ n =>
      refine ⟨n, by rwa [chain_succ h] at hn, hc, fun m hmn d hd => ?_⟩
      exact hm (m + 1) (by omega) d (by rwa [chain_succ h])
  · rintro ⟨n, hn, hc, hm⟩
    refine ⟨n + 1, by rwa [chain_succ h], hc, fun m hmn d hd => ?_⟩
    cases m with
    | zero =>
      obtain rfl : b = d := Option.some.inj (h.symm.trans hd)
      exact hv
    | succ m => exact hm m (by omega) d (by rwa [chain_succ h] at hd)

/-- Going down ends at the first visible node of the chain. -/
theorem visibleChild?_eq_some_iff : t.visibleChild? x = some c ↔ t.FirstBelow x c := by
  induction x using below_induct (t := t) with
  | h x ih =>
    rw [visibleChild?_eq]
    cases hb : t.namedChild? x 0 with
    | none =>
      simp only [Option.bind_none, reduceCtorEq, false_iff]
      rintro ⟨n, hn, -⟩
      cases n <;> simp [chain, hb] at hn
    | some b =>
      rw [Option.bind_some]
      by_cases hv : t.visible b = true
      · rw [if_pos hv, firstBelow_iff_eq hb hv, Option.some.injEq]
      · obtain ⟨i, rfl, hi, -⟩ := namedChild?_zero_eq_some_iff.1 hb
        rw [if_neg hv, ih i (namedAt_iff.1 hi).1, firstBelow_iff hb (by simpa using hv)]

/-- Going down finds nothing exactly if no node of the chain is visible. -/
theorem visibleChild?_eq_none_iff : t.visibleChild? x = none ↔
    ∀ n c, t.chain n x = some c → t.visible c = false := by
  rw [Option.eq_none_iff_forall_ne_some]
  simp only [ne_eq, visibleChild?_eq_some_iff]
  constructor
  · intro h n c hn
    -- The first visible node of the chain, if there were one, would be found.
    by_contra hv
    have he : ∃ n c, t.chain n x = some c ∧ t.visible c = true := ⟨n, c, hn, by simpa using hv⟩
    classical
    obtain ⟨d, hd, hd'⟩ := Nat.find_spec he
    refine h d ⟨_, hd, hd', fun m hm b hb => ?_⟩
    by_contra hb'
    exact Nat.find_min he hm ⟨b, hb, by simpa using hb'⟩
  · rintro h c ⟨n, hn, hc, -⟩
    rw [h n c hn] at hc
    simp at hc

/-- The chain below a node ends. -/
theorem chain_ends (t : Tree) (x : Address) : ∃ n, t.chain n x = none := by
  induction x using below_induct (t := t) with
  | h x ih =>
    cases hb : t.namedChild? x 0 with
    | none => exact ⟨0, hb⟩
    | some b =>
      obtain ⟨i, rfl, hi, -⟩ := namedChild?_zero_eq_some_iff.1 hb
      obtain ⟨n, hn⟩ := ih i (namedAt_iff.1 hi).1
      exact ⟨n + 1, by rwa [chain_succ hb]⟩

/-! ## Down and up again -/

/-- Above a node of the chain are the nodes of the chain before it, the node where the chain
starts, and the nodes above that. -/
theorem above_chain {n : Nat} (h : t.chain n x = some c) {d : Address} (hd : d <:+ c)
    (hne : d ≠ c) : d <:+ x ∨ ∃ m < n, t.chain m x = some d := by
  induction n generalizing x with
  | zero =>
    obtain ⟨i, rfl, -⟩ := namedChild?_zero_eq_some_iff.1 h
    exact .inl (suffix_cons_and_ne.1 ⟨hd, hne⟩)
  | succ n ih =>
    obtain ⟨b, hb, h⟩ := Option.bind_eq_some_iff.1 h
    obtain ⟨i, rfl, -⟩ := namedChild?_zero_eq_some_iff.1 hb
    rcases ih h with hs | ⟨m, hm, hc⟩
    · rcases List.suffix_cons_iff.1 hs with rfl | hs
      · exact .inr ⟨0, by omega, hb⟩
      · exact .inl hs
    · exact .inr ⟨m + 1, by omega, by rwa [chain_succ hb]⟩

theorem suffix_of_chain {n : Nat} (h : t.chain n x = some c) : x <:+ c ∧ x ≠ c := by
  induction n generalizing x with
  | zero =>
    obtain ⟨i, rfl, -⟩ := namedChild?_zero_eq_some_iff.1 h
    exact suffix_cons_and_ne.2 (List.suffix_refl x)
  | succ n ih =>
    obtain ⟨b, hb, h⟩ := Option.bind_eq_some_iff.1 h
    obtain ⟨i, rfl, -⟩ := namedChild?_zero_eq_some_iff.1 hb
    obtain ⟨hs, -⟩ := ih h
    refine ⟨(List.suffix_cons i x).trans hs, ?_⟩
    rintro rfl
    exact (suffix_cons_and_ne.2 hs).2 rfl

/-- The nearest visible node above the visible node below `x` is `x` or lies above `x`. -/
theorem nearestAbove_firstBelow (h : t.FirstBelow x c) (hb : t.NearestAbove c b) :
    b <:+ x ∧ (b = x ↔ t.visible x = true) := by
  obtain ⟨n, hn, -, hm⟩ := h
  have hbx : b <:+ x := by
    rcases above_chain hn hb.above hb.ne with hs | ⟨m, hmn, hd⟩
    · exact hs
    · have := hm m hmn b hd
      rw [hb.visible] at this
      simp at this
  refine ⟨hbx, ?_, fun hv => ?_⟩
  · rintro rfl
    exact hb.visible
  · obtain ⟨hxc, hne⟩ := suffix_of_chain hn
    exact suffix_antisymm hbx (hb.nearest x hxc hne hv)

/-- Movement between levels is navigation on the tree of visible nodes. Climbing stays at the root,
and from any other node ends at the nearest visible node above. Going down ends at the first
visible node on the chain of first named children, and nowhere if that chain ends without one. Back
up from there, climbing returns to the node where the way down began if that node is visible, and
else ends above it. -/
theorem vertical_steps (t : Tree) (x : Address) :
    (x = [] → t.visibleParent x = x) ∧
    (x ≠ [] → t.NearestAbove x (t.visibleParent x)) ∧
    (∀ c, t.visibleChild? x = some c ↔ t.FirstBelow x c) ∧
    (t.visibleChild? x = none ↔ ∀ n c, t.chain n x = some c → t.visible c = false) ∧
    (∃ n, t.chain n x = none) ∧
    ∀ c, t.visibleChild? x = some c →
      (t.visibleParent c = x ↔ t.visible x = true) ∧
      (t.visible x = false → t.visibleParent c <:+ x ∧ t.visibleParent c ≠ x) := by
  refine ⟨?_, ?_, fun _ => visibleChild?_eq_some_iff, visibleChild?_eq_none_iff, chain_ends t x, ?_⟩
  · rintro rfl
    rfl
  · intro hx
    obtain ⟨i, a, rfl⟩ := List.exists_cons_of_ne_nil hx
    exact t.nearestAbove_visibleParent i a
  · intro c hc
    have hf := visibleChild?_eq_some_iff.1 hc
    obtain ⟨n, hn, -⟩ := id hf
    -- A node with a node above it is not the root.
    obtain ⟨i, a, rfl⟩ : ∃ i a, c = i :: a := by
      refine List.exists_cons_of_ne_nil ?_
      rintro rfl
      obtain ⟨hs, hne⟩ := suffix_of_chain hn
      exact hne (List.suffix_nil.1 hs)
    obtain ⟨hs, hiff⟩ := nearestAbove_firstBelow hf (t.nearestAbove_visibleParent i a)
    refine ⟨hiff, fun hv => ⟨hs, fun he => ?_⟩⟩
    rw [hiff, hv] at he
    simp at he

end TreeEdit.Tree
