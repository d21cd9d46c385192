import TreeEdit.Engine.Motion
import TreeEdit.Proofs.Tree.Search
/-!
# Steps stay in the tree

Every way to get from a node to another ends at a node: climbing, stepping to a
sibling or to a visible child, several steps in a row, and finding a node by its
place.
-/

namespace TreeEdit

namespace Tree

variable {t : Tree} {a b : Address}

/-! ## Climbing -/

theorem climb_suffix (t : Tree) (initial a : Address) : t.climb initial a <:+ a := by
  induction a with
  | nil => exact List.suffix_refl []
  | cons i a ih =>
    unfold climb
    split
    · exact List.suffix_refl _
    · split
      · exact List.suffix_cons i a
      · exact ih.trans (List.suffix_cons i a)

theorem visibleParent_suffix (t : Tree) (a : Address) : t.visibleParent a <:+ a :=
  t.climb_suffix a a

theorem outermost_suffix (t : Tree) (a : Address) : t.outermost a <:+ a := by
  induction a with
  | nil => exact List.suffix_refl []
  | cons i a ih =>
    unfold outermost
    split
    · exact ih.trans (List.suffix_cons i a)
    · exact List.suffix_refl _

theorem outermostOver_suffix (t : Tree) (s : Span) (a : Address) : t.outermostOver s a <:+ a := by
  induction a with
  | nil => exact List.suffix_refl []
  | cons i a ih =>
    unfold outermostOver
    split
    · exact ih.trans (List.suffix_cons i a)
    · exact List.suffix_refl _

/-! ## Finding by place -/

theorem has_topmost (t : Tree) (o : Nat) : t.has (t.topmost o) = true :=
  has_of_suffix (t.outermost_suffix _) (t.has_covering o o)

theorem has_spanning {s : Span} (h : t.spanning? s = some a) : t.has a = true := by
  unfold spanning? at h
  dsimp only at h
  split at h
  · obtain rfl := Option.some.inj h
    exact has_of_suffix (t.outermostOver_suffix s _) (t.has_covering s.start s.stop)
  · simp at h

theorem has_getD {o : Option Address} (ho : ∀ a, o = some a → t.has a = true)
    (hb : t.has b = true) : t.has (o.getD b) = true := by
  cases o with
  | none => exact hb
  | some a => exact ho a rfl

/-! ## Siblings and children -/

theorem has_previous (ha : t.has a = true) (h : t.previous? a = some b) : t.has b = true := by
  cases a with
  | nil => simp [previous?] at h
  | cons i a =>
    obtain ⟨j, hj, rfl⟩ := Option.map_eq_some_iff.1 h
    have hi := has_cons.1 ha
    have hji : j < i := by simpa using List.mem_of_find?_eq_some hj
    exact has_cons.2 ⟨hi.1, by omega⟩

theorem has_next (ha : t.has a = true) (h : t.next? a = some b) : t.has b = true := by
  cases a with
  | nil => simp [next?] at h
  | cons i a =>
    obtain ⟨j, hj, rfl⟩ := Option.map_eq_some_iff.1 h
    have hi := has_cons.1 ha
    have hm := List.mem_range'_1.1 (List.mem_of_find?_eq_some hj)
    exact has_cons.2 ⟨hi.1, by omega⟩

mutual

theorem has_visibleBelow : ∀ (u : Tree) (a : Address), t.sub a = u → t.has a = true →
    visibleBelow t u a = some b → t.has b = true
  | node l ts, a, hu, ha, h => by
    rw [visibleBelow] at h
    exact has_visibleAmong ts 0 a (by simp [hu, children]) ha h

/-- The children that are left to look at are those from index `i` on. -/
theorem has_visibleAmong : ∀ (us : List Tree) (i : Nat) (a : Address),
    (t.sub a).children.drop i = us → t.has a = true → visibleAmong t us i a = some b →
      t.has b = true
  | [], i, a, _, _, h => by simp [visibleAmong] at h
  | u :: us, i, a, hd, ha, h => by
    obtain ⟨hi, hu, hd'⟩ := drop_children hd
    have hc : t.has (i :: a) = true := has_cons.2 ⟨ha, hi⟩
    rw [visibleAmong] at h
    split at h
    · split at h
      · exact Option.some.inj h ▸ hc
      · exact has_visibleBelow u (i :: a) hu hc h
    · exact has_visibleAmong us (i + 1) a hd' ha h

end

theorem has_visibleChild (ha : t.has a = true) (h : t.visibleChild? a = some b) :
    t.has b = true := has_visibleBelow _ a rfl ha h

/-! ## Several steps -/

/-- What every step keeps holds of the node that is reached. -/
theorem stepsFrom_induct {step : Address → Option Address} {M : Address → Prop}
    (hs : ∀ a b, M a → step a = some b → M b) (n : Nat) (a : Address) (ha : M a) :
    M (stepsFrom step n a).2 := by
  induction n generalizing a with
  | zero => exact ha
  | succ n ih =>
    unfold stepsFrom
    split
    · exact ha
    · rename_i b hb
      split
      · exact ha
      · exact ih b (hs a b ha hb)

end Tree

/-- A step from a node leads to a node. -/
theorem Motion.has_step {t : Tree} {m : Motion} {a b : Address} (ha : t.has a = true)
    (h : m.step t a = some b) : t.has b = true := by
  cases m with
  | previous => exact Tree.has_previous ha h
  | next => exact Tree.has_next ha h
  | parent => exact Option.some.inj h ▸ Tree.has_of_suffix (t.visibleParent_suffix a) ha
  | child => exact Tree.has_visibleChild ha h

theorem Tree.has_stepsFrom {t : Tree} {a : Address} (ha : t.has a = true) (m : Motion) (n : Nat) :
    t.has (stepsFrom (m.step t) n a).2 = true :=
  stepsFrom_induct (M := fun b => t.has b = true) (fun _ _ hb hc => Motion.has_step hb hc) n a ha

end TreeEdit
