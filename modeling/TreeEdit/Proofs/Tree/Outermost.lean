import Mathlib.Data.Nat.Find
import TreeEdit.Proofs.Tree.Place
/-!
# The outermost node at a place

A node and the nodes around it may cover the same span, or start at the same byte. This
is how the search by place decides between them.

`spanning_exact` says that a span is found exactly if some node covers it, and that the
node found is the outermost one that covers it, the root apart. `startAt_nodeAt_iff` says
when the smallest node around an offset starts there: if any node does, except that an
empty node counts only where the search meets it.
-/

namespace TreeEdit.Tree

variable {t : Tree} {a b c : Address} {s : Span} {p : Nat}

/-! ## Nodes with one span -/

/-- The node at `o` covers the span, and every other node that covers it lies below, the root
apart. The root is meant only if no other node covers the span. -/
structure IsOutermostOver (t : Tree) (s : Span) (o : Address) : Prop where
  has : t.has o = true
  span : t.spanAt o = s
  above : ∀ c, t.has c = true → t.spanAt c = s → c ≠ [] → o ≠ [] ∧ o <:+ c

theorem spanAt_outermostOver (h : t.spanAt a = s) : t.spanAt (t.outermostOver s a) = s := by
  induction a with
  | nil => exact h
  | cons i a ih =>
    unfold outermostOver
    split
    · rename_i ha
      exact ih ha.2
    · exact h

theorem outermostOver_ne_nil (t : Tree) (s : Span) (h : a ≠ []) : t.outermostOver s a ≠ [] := by
  induction a with
  | nil => exact (h rfl).elim
  | cons i a ih =>
    unfold outermostOver
    split
    · rename_i ha
      exact ih ha.1
    · simp

/-- The climb passes none of the nodes by that cover the span. -/
theorem outermostOver_suffix_of_between (hc : c ≠ []) (hca : c <:+ a)
    (hs : ∀ d, c <:+ d → d <:+ a → t.spanAt d = s) : t.outermostOver s a <:+ c := by
  induction a with
  | nil => exact (hc (List.suffix_nil.1 hca)).elim
  | cons i a ih =>
    rcases List.suffix_cons_iff.1 hca with rfl | hca'
    · exact t.outermostOver_suffix s _
    · have ha : a ≠ [] := by
        rintro rfl
        exact hc (List.suffix_nil.1 hca')
      unfold outermostOver
      rw [if_pos ⟨ha, hs a hca' (List.suffix_cons i a)⟩]
      exact ih hca' fun d hd hda => hs d hd (hda.trans (List.suffix_cons i a))

/-- In an ordered tree, a span that is not empty and that some node covers is found, and what is
found is the outermost node that covers it. -/
theorem exists_spanning (h : t.Ordered) (hne : s.start < s.stop) (hb : t.has b = true)
    (hs : t.spanAt b = s) : ∃ o, t.spanning? s = some o ∧ t.IsOutermostOver s o := by
  -- The search passes through every node that covers the span, and all nodes below these on its
  -- way cover it too.
  have hpass : ∀ c, t.has c = true → t.spanAt c = s →
      c <:+ t.covering s.start s.stop ∧
        ∀ d, c <:+ d → d <:+ t.covering s.start s.stop → t.spanAt d = s := by
    rintro c hc rfl
    refine ⟨suffix_covering h hne hc (Nat.le_refl _) (Nat.le_refl _), fun d hcd hd => ?_⟩
    exact NodeRef.spanAt_of_between h hcd hd
  obtain ⟨hsuf, hspan⟩ := hpass b hb hs
  have hcov : t.spanAt (t.covering s.start s.stop) = s := hspan _ hsuf (List.suffix_refl _)
  refine ⟨_, if_pos hcov, ?_, spanAt_outermostOver hcov, fun c hc hcs hcn => ?_⟩
  · exact has_of_suffix (t.outermostOver_suffix s _) (t.has_covering _ _)
  · obtain ⟨hca, hbet⟩ := hpass c hc hcs
    have ha : t.covering s.start s.stop ≠ [] := by
      intro he
      rw [he] at hca
      exact hcn (List.suffix_nil.1 hca)
    exact ⟨outermostOver_ne_nil t s ha, outermostOver_suffix_of_between hcn hca hbet⟩

/-- Whatever is found covers the span, in any tree. -/
theorem spanAt_of_spanning (h : t.spanning? s = some a) : t.spanAt a = s := by
  unfold spanning? at h
  dsimp only at h
  split at h
  · rename_i hs
    obtain rfl := Option.some.inj h
    exact spanAt_outermostOver hs
  · simp at h

/-- There is only one outermost node. -/
theorem IsOutermostOver.unique (ha : t.IsOutermostOver s a) (hb : t.IsOutermostOver s b) :
    a = b := by
  by_cases hn : b = []
  · by_contra hab
    have hab' : a ≠ [] := fun he => hab (he.trans hn.symm)
    exact (hb.above a ha.has ha.span hab').1 hn
  · obtain ⟨hne, hab⟩ := ha.above b hb.has hb.span hn
    have hba := (hb.above a ha.has ha.span hne).2
    exact hab.eq_of_length_le hba.length_le

/-- In an ordered tree, nothing is found for a span that is not empty exactly if no node covers it.
What is found is the outermost node that covers it, the root apart, and that node is found; the root
is found if no other node covers the span. -/
theorem spanning_exact (h : t.Ordered) (hne : s.start < s.stop) :
    (t.spanning? s = none ↔ ∀ a, t.has a = true → t.spanAt a ≠ s) ∧
    ∀ o, t.spanning? s = some o ↔ t.IsOutermostOver s o := by
  refine ⟨⟨fun hn a ha hs => ?_, fun hn => ?_⟩, fun o => ⟨fun ho => ?_, fun ho => ?_⟩⟩
  · obtain ⟨o, ho, -⟩ := exists_spanning h hne ha hs
    rw [hn] at ho
    simp at ho
  · rw [Option.eq_none_iff_forall_ne_some]
    exact fun o ho => hn o (has_spanning ho) (spanAt_of_spanning ho)
  · obtain ⟨o', ho', hout⟩ := exists_spanning h hne (has_spanning ho) (spanAt_of_spanning ho)
    rw [ho] at ho'
    rwa [Option.some.inj ho']
  · obtain ⟨o', ho', hout⟩ := exists_spanning h hne ho.has ho.span
    rwa [ho.unique hout]

/-- Of three nodes that cover the whole text, the one below the root is found. Between empty nodes
the number is found, and for two of the three letters nothing is. In a text of two letters the root
is the only node that covers both. -/
theorem spanning_exact_wrapped :
    NodeRef.wrapped.Ordered ∧ NodeRef.wrapped.IsOutermostOver ⟨0, 3⟩ [0] ∧
    NodeRef.wrapped.IsOutermostOver ⟨1, 2⟩ [2, 0, 0] ∧
    (∀ a, NodeRef.wrapped.has a = true → NodeRef.wrapped.spanAt a ≠ ⟨0, 2⟩) ∧
    (Parser.letters 0 ['a', 'b']).IsOutermostOver ⟨0, 2⟩ [] := by
  have ho : NodeRef.wrapped.Ordered := by decide
  have ho' : (Parser.letters 0 ['a', 'b']).Ordered := by decide
  exact ⟨ho, ((spanning_exact ho (by decide)).2 _).1 (by decide),
    ((spanning_exact ho (by decide)).2 _).1 (by decide),
    (spanning_exact ho (by decide)).1.1 (by decide),
    ((spanning_exact ho' (by decide)).2 _).1 (by decide)⟩

/-! ## Nodes with one start -/

theorem startAt_outermost (t : Tree) (a : Address) : t.startAt (t.outermost a) = t.startAt a := by
  induction a with
  | nil => rfl
  | cons i a ih =>
    unfold outermost
    split
    · rename_i hs
      rw [ih, hs]
    · rfl

theorem startAt_topmost (t : Tree) (p : Nat) : t.startAt (t.topmost p) = t.startAt (t.nodeAt p) :=
  t.startAt_outermost _

/-- The smallest node around an offset holds it, if it is not the root. -/
theorem around_nodeAt (h : t.nodeAt p ≠ []) :
    t.startAt (t.nodeAt p) ≤ p ∧ p ≤ (t.spanAt (t.nodeAt p)).stop := by
  obtain ⟨i, a, ha⟩ := List.exists_cons_of_ne_nil h
  have hsuf : i :: a <:+ t.covering p p := ha ▸ List.suffix_refl _
  rw [ha]
  exact around_of_suffix_covering hsuf

/-- Below a node at an offset that the search for the offset passes through, it stays there. -/
theorem startAt_nodeAt_of_suffix (h : t.Ordered) (hb : b <:+ t.nodeAt p) (hs : t.startAt b = p) :
    t.startAt (t.nodeAt p) = p := by
  by_cases hn : t.nodeAt p = []
  · rw [hn] at hb ⊢
    rwa [← List.suffix_nil.1 hb]
  · have hw : t.startAt b ≤ t.startAt (t.nodeAt p) := (h.within hb).1
    have hr := (around_nodeAt hn).1
    omega

/-- The search for an offset passes through a node that holds it, unless an empty node at the
offset diverts it. -/
theorem suffix_nodeAt_or (h : t.Ordered) (hb : t.has b = true) (hs : t.startAt b ≤ p)
    (ht : p < (t.spanAt b).stop) : b <:+ t.nodeAt p ∨ t.startAt (t.nodeAt p) = p := by
  induction b with
  | nil => exact .inl (List.nil_suffix)
  | cons i a ih =>
    obtain ⟨ha, hi⟩ := has_cons.1 hb
    have hw := h.child_within i a
    have hsa : t.startAt a ≤ p := Nat.le_trans hw.1 hs
    rcases ih ha hsa (Nat.lt_of_lt_of_le ht hw.2) with hsuf | hst
    · by_cases he : ∃ j, j < i ∧ t.spanAt (j :: a) = ⟨p, p⟩
      · -- The first of the empty nodes at the offset is the one that the search goes into.
        obtain ⟨hji, hj⟩ := Nat.find_spec he
        have hjs : t.startAt (Nat.find he :: a) = p := congrArg Span.start hj
        refine .inr (startAt_nodeAt_of_suffix h (cons_suffix_covering_iff.2 ⟨hsuf, ?_⟩) hjs)
        refine (enters_place_iff h (by omega) (Nat.le_of_eq hjs) (by rw [hj])).2 ⟨.inl ?_, ?_⟩
        · simp [hj, Span.isEmpty]
        · exact fun k hk hks => Nat.find_min he hk ⟨by omega, hks⟩
      · refine .inl (cons_suffix_covering_iff.2 ⟨hsuf, ?_⟩)
        refine (enters_place_iff h hi hs (Nat.le_of_lt ht)).2 ⟨.inr ht, fun j hj hjs => ?_⟩
        exact he ⟨j, hj, hjs⟩
    · exact .inr hst

/-- A node starts at the offset: one that is not empty, or an empty one that the search for the
offset meets. -/
def StartsAt (t : Tree) (p : Nat) : Prop :=
  ∃ a, t.has a = true ∧ t.startAt a = p ∧ ((t.spanAt a).isEmpty = false ∨ t.Met p a)

/-- In an ordered tree the smallest node around an offset starts there exactly if some node does. -/
theorem startAt_nodeAt_iff (h : t.Ordered) : t.startAt (t.nodeAt p) = p ↔ t.StartsAt p := by
  constructor
  · intro hs
    have hle : t.startAt (t.nodeAt p) ≤ (t.spanAt (t.nodeAt p)).stop := h.spanAt_le _
    rw [hs] at hle
    refine ⟨t.nodeAt p, t.has_covering p p, hs, .inr ?_⟩
    exact (suffix_covering_place_iff h (t.has_covering p p) (Nat.le_of_eq hs) hle).1
      (List.suffix_refl _)
  · rintro ⟨a, ha, hs, hm⟩
    have hle := h.spanAt_le a
    rcases hm with hne | hm
    · have ht : p < (t.spanAt a).stop := by
        have hlt : (t.spanAt a).start < (t.spanAt a).stop := by simpa [Span.isEmpty] using hne
        exact hs ▸ hlt
      rcases suffix_nodeAt_or h ha (Nat.le_of_eq hs) ht with hsuf | hst
      · exact startAt_nodeAt_of_suffix h hsuf hs
      · exact hst
    · have hsuf : a <:+ t.nodeAt p :=
        (suffix_covering_place_iff h ha (Nat.le_of_eq hs) (hs ▸ hle)).2 hm
      exact startAt_nodeAt_of_suffix h hsuf hs

/-- The topmost node at an offset is not empty, unless it starts there or the whole tree is
empty. -/
theorem startsAt_or_of_isEmpty_topmost (h : t.Ordered)
    (he : (t.spanAt (t.topmost p)).isEmpty = true) : t.StartsAt p ∨ t.span.isEmpty = true := by
  by_cases hn : t.nodeAt p = []
  · have ht : t.topmost p = [] := by rw [topmost, hn, outermost]
    rw [ht] at he
    exact .inr he
  · -- The node found holds the offset and lies in the topmost one, so it is empty and right there.
    refine .inl ((startAt_nodeAt_iff h).1 ?_)
    have hr := around_nodeAt hn
    have hs := t.startAt_topmost p
    have hw : (t.spanAt (t.nodeAt p)).stop ≤ (t.spanAt (t.topmost p)).stop :=
      (h.within (t.outermost_suffix _)).2
    simp only [Span.isEmpty, decide_eq_true_eq] at he
    unfold startAt at *
    omega

theorem isEmpty_of_isEmpty_root (h : t.Ordered) (he : t.span.isEmpty = true) (a : Address) :
    (t.spanAt a).isEmpty = true := by
  have hw := h.within (List.nil_suffix (l := a))
  have hroot : t.spanAt [] = t.span := rfl
  rw [hroot] at hw
  simp only [Span.isEmpty, decide_eq_true_eq] at he ⊢
  omega

end TreeEdit.Tree
