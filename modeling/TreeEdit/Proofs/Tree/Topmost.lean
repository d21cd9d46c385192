import TreeEdit.Proofs.Tree.Outermost
import TreeEdit.Proofs.Tree.Travel
/-!
# The topmost node at an offset

Looking for an offset goes down to the smallest node around it and then up again, as long
as the parent starts at the same byte. The way up ends at the root or below a parent that
starts elsewhere, in any tree (`outermost_apart`).

Without empty nodes the way down from the start of a node passes through that node
(`Solid.suffix_nodeAt`), so the way up goes over it as well. `topmost_by_start` says what
that makes of a node and its wrappers: all nodes that start at one byte lie on one line, and
all of them are found as the outermost one.
-/

namespace TreeEdit.Tree

variable {t : Tree} {a b c : Address} {p : Nat}

/-! ## The way up -/

/-- The node at `o` is the outermost of the nodes above, or at, `a` that start where the node at `a`
starts. -/
structure IsOutermost (t : Tree) (a o : Address) : Prop where
  above : o <:+ a
  start : t.startAt o = t.startAt a
  outermost : ∀ c, c <:+ a → t.startAt c = t.startAt a → o <:+ c

theorem outermost_apart (t : Tree) (a : Address) : t.outermost a = [] ∨
    ∃ i b, t.outermost a = i :: b ∧ t.startAt (i :: b) ≠ t.startAt b := by
  induction a with
  | nil => exact .inl rfl
  | cons i a ih =>
    unfold outermost
    split
    · exact ih
    · rename_i hs
      exact .inr ⟨i, a, rfl, Ne.symm hs⟩

/-- In an ordered tree the nodes between two with one start have that start too. -/
theorem Ordered.startAt_between (h : t.Ordered) (hcb : c <:+ b) (hba : b <:+ a)
    (hs : t.startAt c = t.startAt a) : t.startAt b = t.startAt a := by
  have h₁ : t.startAt c ≤ t.startAt b := (h.within hcb).1
  have h₂ : t.startAt b ≤ t.startAt a := (h.within hba).1
  omega

/-- The way up from a node leads on from every node above it with the same start. -/
theorem Ordered.outermost_of_suffix (h : t.Ordered) (hca : c <:+ a)
    (hs : t.startAt c = t.startAt a) : t.outermost a = t.outermost c := by
  induction a with
  | nil => rw [List.suffix_nil.1 hca]
  | cons i a ih =>
    rcases List.suffix_cons_iff.1 hca with rfl | hca
    · rfl
    · have ha : t.startAt a = t.startAt (i :: a) :=
        h.startAt_between hca (List.suffix_cons i a) hs
      rw [outermost, if_pos ha]
      exact ih hca (hs.trans ha.symm)

theorem Ordered.isOutermost_outermost (h : t.Ordered) (a : Address) :
    t.IsOutermost a (t.outermost a) := by
  refine ⟨t.outermost_suffix a, t.startAt_outermost a, fun c hca hs => ?_⟩
  rw [h.outermost_of_suffix hca hs]
  exact t.outermost_suffix c

/-- An outermost node has no way up. -/
theorem Ordered.outermost_outermost (h : t.Ordered) (a : Address) :
    t.outermost (t.outermost a) = t.outermost a :=
  (h.outermost_of_suffix (t.outermost_suffix a) (t.startAt_outermost a)).symm

/-! ## The way down -/

/-- Without empty nodes every node that an offset lies in is met by the search for the offset. -/
theorem Solid.met (ho : t.Ordered) (hs : t.Solid) (hp : p < (t.spanAt a).stop) : t.Met p a := by
  induction a with
  | nil => trivial
  | cons i a ih =>
    have hw := ho.child_within i a
    refine ⟨ih (by omega), .inr hp, fun j _ hj => ?_⟩
    have hlt := hs.start_lt_stop (j :: a)
    rw [hj] at hlt
    exact Nat.lt_irrefl p hlt

/-- Without empty nodes the search for an offset passes through every node that it lies in. Where
one node stops and the next one starts, that is the next one. -/
theorem Solid.suffix_nodeAt (ho : t.Ordered) (hs : t.Solid) (ha : t.has a = true)
    (hle : t.startAt a ≤ p) (hlt : p < (t.spanAt a).stop) : a <:+ t.nodeAt p :=
  (suffix_covering_place_iff ho ha hle (Nat.le_of_lt hlt)).2 (hs.met ho hlt)

theorem Solid.suffix_nodeAt_startAt (ho : t.Ordered) (hs : t.Solid) (ha : t.has a = true) :
    a <:+ t.nodeAt (t.startAt a) :=
  hs.suffix_nodeAt ho ha (Nat.le_refl _) (hs.start_lt_stop a)

/-! ## Down and up -/

/-- The topmost node at the start of a node is found by going up from that node. -/
theorem Solid.topmost_startAt (ho : t.Ordered) (hs : t.Solid) (ha : t.has a = true) :
    t.topmost (t.startAt a) = t.outermost a := by
  have hd := hs.suffix_nodeAt_startAt ho ha
  exact ho.outermost_of_suffix hd (startAt_nodeAt_of_suffix ho hd rfl).symm

/-- Looking for an offset finds the root or a node that starts behind its parent. Without empty
nodes it finds, at the start of a node, the outermost of the nodes above it that start there. Two
nodes with one start lie one above the other, and the outermost node is the same for both. What is
found is found again at its own start. -/
theorem topmost_by_start (t : Tree) :
    (∀ p, t.has (t.topmost p) = true ∧ (t.topmost p = [] ∨
      ∃ i a, t.topmost p = i :: a ∧ t.startAt (i :: a) ≠ t.startAt a)) ∧
    (t.Ordered → t.Solid →
      (∀ a, t.has a = true → t.IsOutermost a (t.topmost (t.startAt a))) ∧
      (∀ a b, t.has a = true → t.has b = true → t.startAt a = t.startAt b →
        (a <:+ b ∨ b <:+ a) ∧ t.IsOutermost b (t.topmost (t.startAt a))) ∧
      ∀ p, t.topmost (t.startAt (t.topmost p)) = t.topmost p) := by
  refine ⟨fun p => ⟨t.has_topmost p, t.outermost_apart _⟩, fun ho hs => ?_⟩
  have htop : ∀ a, t.has a = true → t.IsOutermost a (t.topmost (t.startAt a)) := by
    intro a ha
    rw [hs.topmost_startAt ho ha]
    exact ho.isOutermost_outermost a
  refine ⟨htop, fun a b ha hb hab => ⟨?_, ?_⟩, fun p => ?_⟩
  · -- The search for their common start passes through both nodes.
    have hda := hs.suffix_nodeAt_startAt ho ha
    have hdb := hs.suffix_nodeAt_startAt ho hb
    rw [← hab] at hdb
    exact List.suffix_or_suffix_of_suffix hda hdb
  · rw [hab]
    exact htop b hb
  · rw [hs.topmost_startAt ho (t.has_topmost p)]
    exact ho.outermost_outermost _

/-- The tree of the text `(a.b())`: a statement, the call in it, the member that is called and the
name `a` all start at the same byte. -/
def statement : Tree :=
  let leaf (start stop : Nat) : Tree := .node ⟨"leaf", true, false, false, ⟨start, stop⟩⟩ []
  let wrap (kind : String) (stop : Nat) (ts : List Tree) : Tree :=
    .node ⟨kind, true, false, false, ⟨1, stop⟩⟩ ts
  .node ⟨"block", true, false, false, ⟨0, 7⟩⟩ [leaf 0 1,
    wrap "statement" 6 [wrap "call" 6 [wrap "member" 4 [leaf 1 2, leaf 2 3, leaf 3 4], leaf 4 6]],
    leaf 6 7]

/-- The name, the member and the call are all found as the statement. The dot, which starts where
the name stops, is found as itself. -/
theorem topmost_by_start_statement :
    statement.Ordered ∧ statement.Solid ∧ statement.topmost 1 = [1] ∧
    statement.startAt [1] ≠ statement.startAt [] ∧
    statement.IsOutermost [0, 0, 0, 1] [1] ∧ statement.IsOutermost [0, 1] [1] ∧
    statement.IsOutermost [1, 0, 0, 1] [1, 0, 0, 1] ∧
    statement.topmost (statement.startAt (statement.topmost 3)) = statement.topmost 3 := by
  have ho : statement.Ordered := by decide
  have hs : statement.Solid := by decide
  obtain ⟨hfound, hsolid⟩ := topmost_by_start statement
  obtain ⟨htop, hpair, hagain⟩ := hsolid ho hs
  have hname : statement.topmost 1 = [1] := by decide
  have hdot : statement.topmost 2 = [1, 0, 0, 1] := by decide
  refine ⟨ho, hs, hname, ?_, hname ▸ htop [0, 0, 0, 1] rfl, ?_, hdot ▸ htop [1, 0, 0, 1] rfl,
    hagain 3⟩
  · obtain ⟨-, h | ⟨i, a, h, hne⟩⟩ := hfound 1
    · rw [hname] at h
      simp at h
    · rw [hname] at h
      obtain ⟨rfl, rfl⟩ := List.cons.inj h
      exact hne
  · exact hname ▸ (hpair [0, 0, 0, 1] [0, 1] rfl rfl rfl).2

end TreeEdit.Tree
