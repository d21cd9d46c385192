import TreeEdit.Engine.Motion
import TreeEdit.Proofs.Tree.Visible
/-!
# Travels in a tree

A travel is a row of movements, each of several steps. In a tree without empty nodes
in which only nodes without children may be unnamed, travels get to every visible named
node (`leads_visible`) and, once at such a node, never leave the visible named nodes
(`travel_shown`).

The way to a visible node goes over the nearest visible node above it: from there one
step down gets to the first child of the parent, since the nodes between are only
children that start where their parents start.
-/

namespace TreeEdit.Tree

/-! ## Conditions on all nodes -/

mutual

/-- The condition holds of the tree and of every tree below. -/
def all (p : Tree → Bool) : Tree → Bool
  | node l ts => p (node l ts) && allOf p ts

/-- The condition holds of the trees and of every tree below them. -/
def allOf (p : Tree → Bool) : List Tree → Bool
  | [] => true
  | t :: ts => t.all p && allOf p ts

end

variable {t : Tree} {a b c x : Address} {i j : Nat}

theorem allOf_of_all {p : Tree → Bool} (h : t.all p = true) :
    p t = true ∧ allOf p t.children = true := by
  cases t
  simpa [all, children] using h

theorem all_of_allOf {p : Tree → Bool} {ts : List Tree} (h : allOf p ts = true) (ht : t ∈ ts) :
    t.all p = true := by
  induction ts with
  | nil => simp at ht
  | cons u ts ih =>
    rw [allOf, Bool.and_eq_true] at h
    rcases List.mem_cons.1 ht with rfl | ht
    · exact h.1
    · exact ih h.2 ht

theorem all_sub {p : Tree → Bool} (h : t.all p = true) (a : Address) : p (t.sub a) = true := by
  suffices hs : (t.sub a).all p = true from (allOf_of_all hs).1
  induction a with
  | nil => exact h
  | cons i a ih =>
    by_cases hi : i < (t.sub a).children.length
    · exact all_of_allOf (allOf_of_all ih).2 (sub_cons_mem hi)
    · rwa [sub_cons_of_le (Nat.le_of_not_lt hi)]

/-- No node is empty. -/
def Solid (t : Tree) : Prop := t.all (fun u => !u.span.isEmpty) = true

instance (t : Tree) : Decidable t.Solid :=
  inferInstanceAs (Decidable (t.all (fun u => !u.span.isEmpty) = true))

theorem Solid.start_lt_stop (h : t.Solid) (a : Address) :
    (t.spanAt a).start < (t.spanAt a).stop := by
  simpa [spanAt, Span.isEmpty] using all_sub h a

/-- Without empty nodes the step forward passes over no named node. -/
theorem Ordered.canFollow (h : t.Ordered) (hs : t.Solid) (hij : i < j)
    (hj : namedAt (t.sub a).children j = true) : t.CanFollow a i j :=
  h.canFollow_of_lt hij hj (hs.start_lt_stop (j :: a))

/-- The tree is ordered and has no empty node, and every node with children is named. -/
structure Regular (t : Tree) : Prop where
  ordered : t.Ordered
  solid : t.all (fun u => !u.span.isEmpty) = true
  branching : t.all (fun u => u.children.isEmpty || u.named) = true

instance (t : Tree) : Decidable t.Regular :=
  decidable_of_iff (t.Ordered ∧ t.all (fun u => !u.span.isEmpty) = true ∧
    t.all (fun u => u.children.isEmpty || u.named) = true)
    ⟨fun h => ⟨h.1, h.2.1, h.2.2⟩, fun h => ⟨h.1, h.2, h.3⟩⟩

namespace Regular

theorem named_of_child (h : t.Regular) (hi : i < (t.sub a).children.length) :
    (t.sub a).named = true := by
  have hb := all_sub h.branching a
  simp only [Bool.or_eq_true, List.isEmpty_iff] at hb
  rcases hb with hb | hb
  · simp [hb] at hi
  · exact hb

/-- Every node above a node is named. -/
theorem named_above (h : t.Regular) (hx : t.has (i :: a) = true) (hb : b <:+ a) :
    (t.sub b).named = true := by
  induction a generalizing i with
  | nil =>
    rw [List.suffix_nil.1 hb]
    exact h.named_of_child (has_cons.1 hx).2
  | cons j a ih =>
    rcases List.suffix_cons_iff.1 hb with rfl | hb
    · exact h.named_of_child (has_cons.1 hx).2
    · exact ih (has_of_has_cons hx) hb

theorem canFollow (h : t.Regular) (hij : i < j) (hj : namedAt (t.sub a).children j = true) :
    t.CanFollow a i j := h.ordered.canFollow h.solid hij hj

/-- A node without siblings is the only named child of its parent, if it is named at all. -/
theorem eq_of_namedAt (h : t.Regular) (hs : t.hasSibling (i :: a) = false)
    (hj : namedAt (t.sub a).children j = true) : j = i := by
  rw [← Bool.not_eq_true, hasSibling, Bool.or_eq_true, isSome_previous?, isSome_next?] at hs
  rcases Nat.lt_trichotomy j i with hji | hji | hji
  · exact (hs (.inl ⟨j, hji, hj⟩)).elim
  · exact hji
  · exact (hs (.inr ⟨j, h.canFollow hji hj⟩)).elim

end Regular

/-- Of two named siblings, each has the other for a sibling. -/
theorem visible_of_sibling (h : t.Regular) (hij : i ≠ j)
    (hi : namedAt (t.sub a).children i = true) : t.visible (j :: a) = true := by
  refine visible_of_hasSibling ?_
  rw [hasSibling, Bool.or_eq_true, isSome_previous?, isSome_next?]
  rcases Nat.lt_or_gt_of_ne hij with hlt | hlt
  · exact .inl ⟨i, hlt, hi⟩
  · exact .inr ⟨i, h.canFollow hlt hi⟩

/-! ## Travels -/

/-- The end of a row of movements, each a kind of step and the number of steps asked for. -/
def travel (t : Tree) (a : Address) (ms : List (Motion × Nat)) : Address :=
  ms.foldl (fun a m => (stepsFrom (m.1.step t) m.2 a).2) a

theorem travel_append (t : Tree) (a : Address) (ms ns : List (Motion × Nat)) :
    t.travel a (ms ++ ns) = t.travel (t.travel a ms) ns := List.foldl_append

theorem travel_one {m : Motion} (h : m.step t a = some b) : t.travel a [(m, 1)] = b := by
  simp only [travel, List.foldl_cons, List.foldl_nil, stepsFrom, h]
  split
  · rename_i he
    exact he.symm
  · rfl

/-- What every step keeps holds at the end of a travel. -/
theorem travel_induct {M : Address → Prop} (hs : ∀ m a b, M a → Motion.step t m a = some b → M b)
    (ms : List (Motion × Nat)) (a : Address) (ha : M a) : M (t.travel a ms) := by
  induction ms generalizing a with
  | nil => exact ha
  | cons m ms ih => exact ih _ (stepsFrom_induct (hs m.1) m.2 a ha)

/-- Some movements to parents, children and next siblings lead from one node to the other. -/
def Leads (t : Tree) (a b : Address) : Prop :=
  ∃ ms : List (Motion × Nat), (∀ m ∈ ms, m.1 ≠ .previous) ∧ t.travel a ms = b

theorem Leads.refl (t : Tree) (a : Address) : t.Leads a a := ⟨[], by simp, rfl⟩

theorem Leads.trans (h : t.Leads a b) (h' : t.Leads b c) : t.Leads a c := by
  obtain ⟨ms, hm, rfl⟩ := h
  obtain ⟨ns, hn, rfl⟩ := h'
  refine ⟨ms ++ ns, fun m hm' => ?_, travel_append t a ms ns⟩
  rcases List.mem_append.1 hm' with h | h
  · exact hm m h
  · exact hn m h

theorem leads_step {m : Motion} (hm : m ≠ .previous) (h : m.step t a = some b) : t.Leads a b :=
  ⟨[(m, 1)], by simpa using hm, travel_one h⟩

/-! ## Every visible node -/

theorem leads_root (t : Tree) (a : Address) : t.Leads a [] := by
  -- By induction on the length of the address, which climbing makes shorter.
  induction hn : a.length using Nat.strong_induction_on generalizing a with
  | h n ih =>
    cases a with
    | nil => exact .refl t []
    | cons i a =>
      have hp := (t.nearestAbove_visibleParent i a).above
      have hl := (suffix_cons_and_ne.1 ⟨hp, (t.nearestAbove_visibleParent i a).ne⟩).length_le
      simp only [List.length_cons] at hn
      exact (leads_step (m := .parent) (by simp) rfl).trans (ih _ (by omega) _ rfl)

/-- Steps forward get to every later named sibling. -/
theorem leads_sibling (h : t.Regular) (hij : i ≤ j)
    (hj : namedAt (t.sub a).children j = true) : t.Leads (i :: a) (j :: a) := by
  -- By induction on the number of children between the two.
  induction hn : j - i using Nat.strong_induction_on generalizing i with
  | h n ih =>
    rcases Nat.eq_or_lt_of_le hij with rfl | hlt
    · exact .refl t _
    · have hf := h.canFollow hlt hj
      obtain ⟨b, hb⟩ := Option.isSome_iff_exists.1 (isSome_next?.2 ⟨j, hf⟩)
      obtain ⟨k, rfl, hk, hmin⟩ := next?_cons_eq_some_iff.1 hb
      have hik : i < k := hk.1
      have hkj : k ≤ j := Nat.le_of_not_lt fun hlt' => hmin j hlt' hf
      have hstep : Motion.step t .next (i :: a) = some (k :: a) := hb
      exact (leads_step (by simp) hstep).trans (ih (j - k) (by omega) hkj rfl)

/-- A named node that is not visible makes one level with its parent: the way down is the same from
both. -/
theorem visibleChild?_of_hidden (h : t.Regular) (ha : namedAt (t.sub a).children i = true)
    (hv : t.visible (i :: a) = false) : t.visibleChild? a = t.visibleChild? (i :: a) := by
  simp only [visible, Bool.or_eq_false_iff] at hv
  have hc : t.namedChild? a 0 = some (i :: a) := by
    refine namedChild?_zero_eq_some_iff.2 ⟨i, rfl, ha, fun j hj => ?_⟩
    rw [← Bool.not_eq_true]
    intro hn
    have := h.eq_of_namedAt hv.1 hn
    omega
  rw [visibleChild?_eq, hc, Option.bind_some, if_neg (by simp [visible, hv])]

/-- From the nearest visible node above a node, the way down is that from the parent. -/
theorem visibleChild?_of_nearestAbove (h : t.Regular) (hx : t.has (i :: a) = true)
    (hb : t.NearestAbove (i :: a) b) : t.visibleChild? b = t.visibleChild? a := by
  induction a generalizing i with
  | nil => rw [List.suffix_nil.1 (suffix_cons_and_ne.1 ⟨hb.above, hb.ne⟩)]
  | cons j a ih =>
    rcases List.suffix_cons_iff.1 (suffix_cons_and_ne.1 ⟨hb.above, hb.ne⟩) with rfl | hs
    · rfl
    · -- The parent lies between, so it is not visible, and named because it has a child.
      have hba : b <:+ j :: a ∧ b ≠ j :: a := suffix_cons_and_ne.2 hs
      have hv : t.visible (j :: a) = false := by
        rw [← Bool.not_eq_true]
        intro hv
        obtain ⟨hp, hne⟩ : j :: a <:+ i :: j :: a ∧ j :: a ≠ i :: j :: a :=
          suffix_cons_and_ne.2 (List.suffix_refl _)
        exact hba.2 (suffix_antisymm hba.1 (hb.nearest _ hp hne hv))
      obtain ⟨hp, hi⟩ := has_cons.1 hx
      have hn := namedAt_iff.2 ⟨(has_cons.1 hp).2, h.named_of_child hi⟩
      rw [← visibleChild?_of_hidden h hn hv]
      refine ih hp ⟨hb.visible, hba.1, hba.2, fun c hc hc' hv' => ?_⟩
      obtain ⟨hci, hci'⟩ : c <:+ i :: j :: a ∧ c ≠ i :: j :: a := suffix_cons_and_ne.2 hc
      exact hb.nearest c hci hci' hv'

/-- From the nearest visible node above it, every visible named node can be got to. -/
theorem leads_from_nearestAbove (h : t.Regular) (hx : t.has (i :: a) = true)
    (hn : (t.sub (i :: a)).named = true) (hv : t.visible (i :: a) = true)
    (hb : t.NearestAbove (i :: a) b) : t.Leads b (i :: a) := by
  have hi : namedAt (t.sub a).children i = true := namedAt_iff.2 ⟨(has_cons.1 hx).2, hn⟩
  -- One step down gets to the first named child of the parent.
  obtain ⟨j, hj, hji, hvj⟩ : ∃ j, t.namedChild? a 0 = some (j :: a) ∧ j ≤ i ∧
      t.visible (j :: a) = true := by
    classical
    have he : ∃ j, namedAt (t.sub a).children j = true := ⟨i, hi⟩
    have hf := Nat.find_spec he
    have hle : Nat.find he ≤ i := Nat.find_min' he hi
    refine ⟨Nat.find he, namedChild?_zero_eq_some_iff.2 ⟨_, rfl, hf, fun k hk => ?_⟩, hle, ?_⟩
    · simpa using Nat.find_min he hk
    · rcases Nat.eq_or_lt_of_le hle with heq | hlt
      · rwa [heq]
      · exact visible_of_sibling h (by omega) hi
  have hc : t.visibleChild? b = some (j :: a) := by
    rw [visibleChild?_of_nearestAbove h hx hb, visibleChild?_eq, hj, Option.bind_some, if_pos hvj]
  have hstep : Motion.step t .child b = some (j :: a) := hc
  exact (leads_step (by simp) hstep).trans (leads_sibling h hji hi)

/-- Every visible named node can be got to from the root. -/
theorem leads_visible (h : t.Regular) (hx : t.has x = true) (hn : (t.sub x).named = true)
    (hv : t.visible x = true) : t.Leads [] x := by
  -- By induction on the length of the address: the visible node above comes first.
  induction hl : x.length using Nat.strong_induction_on generalizing x with
  | h n ih =>
    cases x with
    | nil => exact .refl t []
    | cons i a =>
      have hb := t.nearestAbove_visibleParent i a
      have hs := suffix_cons_and_ne.1 ⟨hb.above, hb.ne⟩
      have hlen := hs.length_le
      simp only [List.length_cons] at hl
      exact (ih _ (by omega) (has_of_suffix hb.above hx) (h.named_above hx hs) hb.visible rfl).trans
        (leads_from_nearestAbove h hx hn hv hb)

/-! ## Only visible nodes -/

/-- The node is a node of the tree, named and visible. -/
def Shown (t : Tree) (a : Address) : Prop :=
  t.has a = true ∧ (t.sub a).named = true ∧ t.visible a = true

theorem Shown.previous (h : t.Regular) (ha : t.Shown a) (hb : t.previous? a = some b) :
    t.Shown b := by
  obtain ⟨hh, hn, -⟩ := ha
  cases a with
  | nil => simp [previous?] at hb
  | cons i a =>
    obtain ⟨j, rfl, hji, hj⟩ := previous?_cons hb
    have hi := namedAt_iff.2 ⟨(has_cons.1 hh).2, hn⟩
    obtain ⟨hl, hn'⟩ := namedAt_iff.1 hj
    exact ⟨has_cons.2 ⟨(has_cons.1 hh).1, hl⟩, hn', visible_of_sibling h (by omega) hi⟩

theorem Shown.next (h : t.Regular) (ha : t.Shown a) (hb : t.next? a = some b) : t.Shown b := by
  obtain ⟨hh, hn, -⟩ := ha
  cases a with
  | nil => simp [next?] at hb
  | cons i a =>
    obtain ⟨j, rfl, ⟨hij, hl, hn', -⟩, -⟩ := next?_cons_eq_some_iff.1 hb
    have hi := namedAt_iff.2 ⟨(has_cons.1 hh).2, hn⟩
    exact ⟨has_cons.2 ⟨(has_cons.1 hh).1, hl⟩, hn', visible_of_sibling h (by omega) hi⟩

theorem Shown.parent (h : t.Regular) (ha : t.Shown a) : t.Shown (t.visibleParent a) := by
  cases a with
  | nil => exact ha
  | cons i a =>
    have hb := t.nearestAbove_visibleParent i a
    exact ⟨has_of_suffix hb.above ha.1,
      h.named_above ha.1 (suffix_cons_and_ne.1 ⟨hb.above, hb.ne⟩), hb.visible⟩

/-- The nodes of a chain are named, whatever the node it starts from. -/
theorem named_of_chain {n : Nat} (h : t.chain n a = some b) : (t.sub b).named = true := by
  induction n generalizing a with
  | zero =>
    obtain ⟨i, rfl, hi, -⟩ := namedChild?_zero_eq_some_iff.1 h
    exact (namedAt_iff.1 hi).2
  | succ n ih =>
    obtain ⟨c, -, hc⟩ := Option.bind_eq_some_iff.1 h
    exact ih hc

theorem Shown.child (ha : t.Shown a) (hb : t.visibleChild? a = some b) : t.Shown b := by
  obtain ⟨n, hn, hv, -⟩ := visibleChild?_eq_some_iff.1 hb
  exact ⟨has_visibleChild ha.1 hb, named_of_chain hn, hv⟩

/-- From a visible named node, no travel leaves the visible named nodes. -/
theorem travel_shown (h : t.Regular) (ha : t.Shown a) (ms : List (Motion × Nat)) :
    t.Shown (t.travel a ms) := by
  refine travel_induct (M := t.Shown) (fun m a b ha hb => ?_) ms a ha
  cases m with
  | previous => exact ha.previous h hb
  | next => exact ha.next h hb
  | parent => exact Option.some.inj hb ▸ ha.parent h
  | child => exact ha.child hb

end TreeEdit.Tree
