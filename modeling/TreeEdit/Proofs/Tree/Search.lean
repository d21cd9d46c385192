import TreeEdit.Proofs.Tree.WellFormed
import TreeEdit.Tree.Search
/-!
# What a search by bytes finds

`covering` goes down from the root and never back up. `covering_induct` sums up
one step of the way down, and the rest is derived from it: the search ends at a
node of the tree, and every node it enters reaches around the bytes.

`suffix_covering` is the other direction: in an ordered tree the search passes
through every node around a range that is not empty. Siblings before such a
node, and empty nodes anywhere, do not divert it.
-/

namespace TreeEdit.Tree

/-! ## The way down -/

/-- A node that the search goes into reaches around the bytes. -/
theorem around_of_entered {s : Span} {start stop : Nat} (hb : liesBefore s start stop = false)
    (hs : ¬ start < s.start) : s.start ≤ start ∧ stop ≤ s.stop := by
  simp only [liesBefore, Bool.or_eq_false_iff, decide_eq_false_iff_not] at hb
  omega

/-- What holds of a node holds of the child that the search goes into. -/
def KeptByDescent (t : Tree) (start stop : Nat) (M : Address → Prop) : Prop :=
  ∀ a i, M a → i < (t.sub a).children.length →
    (t.spanAt (i :: a)).start ≤ start → stop ≤ (t.spanAt (i :: a)).stop → M (i :: a)

mutual

theorem coverFrom_induct {t : Tree} {start stop : Nat} {M : Address → Prop}
    (step : t.KeptByDescent start stop M) : ∀ (u : Tree) (a : Address), t.sub a = u → M a →
      M (coverFrom start stop u a)
  | node l ts, a, hu, ha => by
    rw [coverFrom]
    exact coverAmong_induct step ts 0 a (by simp [hu, children]) ha

/-- The children that are left to look at are those from index `i` on. -/
theorem coverAmong_induct {t : Tree} {start stop : Nat} {M : Address → Prop}
    (step : t.KeptByDescent start stop M) : ∀ (us : List Tree) (i : Nat) (a : Address),
      (t.sub a).children.drop i = us → M a → M (coverAmong start stop us i a)
  | [], i, a, _, ha => by rwa [coverAmong]
  | u :: us, i, a, hd, ha => by
    obtain ⟨hi, hu, hd'⟩ := drop_children hd
    rw [coverAmong]
    split
    · exact coverAmong_induct step us (i + 1) a hd' ha
    · rename_i hb
      split
      · exact ha
      · rename_i hs
        have hr := around_of_entered (Bool.eq_false_iff.2 hb) hs
        rw [← hu] at hr
        exact coverFrom_induct step u (i :: a) hu (step a i ha hi hr.1 hr.2)

end

/-- What holds of the root and is kept by every step down holds of the node found. -/
theorem covering_induct {t : Tree} {start stop : Nat} {M : Address → Prop}
    (step : t.KeptByDescent start stop M) (h : M []) : M (t.covering start stop) :=
  coverFrom_induct step t [] rfl h

theorem has_covering (t : Tree) (start stop : Nat) : t.has (t.covering start stop) = true := by
  refine covering_induct (M := fun a => t.has a = true) ?_ rfl
  exact fun a i ha hi _ _ => has_cons.2 ⟨ha, hi⟩

theorem around_of_suffix_covering {t : Tree} {start stop i : Nat} {a : Address}
    (h : i :: a <:+ t.covering start stop) :
    (t.spanAt (i :: a)).start ≤ start ∧ stop ≤ (t.spanAt (i :: a)).stop := by
  revert h
  refine covering_induct (M := fun b => i :: a <:+ b →
    (t.spanAt (i :: a)).start ≤ start ∧ stop ≤ (t.spanAt (i :: a)).stop) ?_ (by simp)
  intro b j ih _ hs hb hab
  -- The node is the one that was entered just now, or the way had passed it before.
  rcases List.suffix_cons_iff.1 hab with he | hab
  · rw [he]
    exact ⟨hs, hb⟩
  · exact ih hab

theorem suffix_coverFrom (t : Tree) (start stop : Nat) (a : Address) :
    a <:+ coverFrom start stop (t.sub a) a := by
  refine coverFrom_induct (t := t) (M := fun b => a <:+ b) ?_ _ a rfl (List.suffix_refl a)
  exact fun b i hb _ _ _ => hb.trans (List.suffix_cons i b)

/-! ## Nodes that the search passes through -/

/-- Past trees that lie before the bytes, the search goes into the one around them. -/
theorem coverAmong_append {start stop : Nat} {us vs : List Tree} {u : Tree} {i : Nat} {a : Address}
    (hb : ∀ v ∈ us, liesBefore v.span start stop = true)
    (hu : liesBefore u.span start stop = false) (hs : u.span.start ≤ start) :
    coverAmong start stop (us ++ u :: vs) i a = coverFrom start stop u ((i + us.length) :: a) := by
  induction us generalizing i with
  | nil =>
    rw [List.nil_append, coverAmong, if_neg (by simp [hu]), if_neg (by omega)]
    rfl
  | cons v us ih =>
    rw [List.cons_append, coverAmong, if_pos (hb v (by simp)), ih fun w hw => hb w (by simp [hw])]
    simp [Nat.add_assoc, Nat.add_comm 1]

theorem coverFrom_eq_child {t : Tree} (h : t.Ordered) {start stop k : Nat} {a : Address}
    (hne : start < stop) (hk : k < (t.sub a).children.length)
    (hs : (t.spanAt (k :: a)).start ≤ start) (hb : stop ≤ (t.spanAt (k :: a)).stop) :
    coverFrom start stop (t.sub a) a = coverFrom start stop (t.sub (k :: a)) (k :: a) := by
  have hc : coverFrom start stop (t.sub a) a = coverAmong start stop (t.sub a).children 0 a := by
    cases t.sub a
    rfl
  have hp : (t.sub a).children = (t.sub a).children.take k ++ t.sub (k :: a) ::
      (t.sub a).children.drop (k + 1) := by
    rw [sub_cons_of_lt hk, ← List.drop_eq_getElem_cons hk, List.take_append_drop]
  rw [hc, hp, coverAmong_append]
  · simp [Nat.min_eq_left (Nat.le_of_lt hk)]
  · intro v hv
    -- An earlier sibling stops where the child starts or before, so before `stop`.
    have hpw := (h.sub a).children.pairwise
    rw [hp] at hpw
    have hv' := (List.pairwise_append.1 hpw).2.2 v hv _ (List.mem_cons_self ..)
    have : v.span.stop < stop := Nat.lt_of_le_of_lt hv' (Nat.lt_of_le_of_lt hs hne)
    simp [liesBefore, this]
  · have hne' : (t.spanAt (k :: a)).isEmpty = false := by
      simp only [Span.isEmpty, decide_eq_false_iff_not]
      omega
    rw [← spanAt]
    simp only [liesBefore, hne', Bool.or_eq_false_iff, decide_eq_false_iff_not]
    simp only [Bool.false_eq_true, if_false, decide_eq_false_iff_not]
    omega
  · exact hs

/-- In an ordered tree, the search for a range that is not empty passes through every node
around it. -/
theorem suffix_covering {t : Tree} (h : t.Ordered) {start stop : Nat} (hne : start < stop)
    {b : Address} (hb : t.has b = true) (hs : (t.spanAt b).start ≤ start)
    (ht : stop ≤ (t.spanAt b).stop) : b <:+ t.covering start stop := by
  -- By induction on the way from the root to `b`; `a` is the part of it that is done.
  suffices hq : ∀ (q a : Address), q.reverse ++ a = b →
      b <:+ coverFrom start stop (t.sub a) a from hq b.reverse [] (by simp)
  intro q
  induction q with
  | nil =>
    rintro a rfl
    exact suffix_coverFrom t start stop a
  | cons k q ih =>
    intro a hqa
    have hka : q.reverse ++ k :: a = b := by simpa using hqa
    have hsuf : k :: a <:+ b := ⟨q.reverse, hka⟩
    have hw := h.within hsuf
    have hk := (has_cons.1 (has_of_suffix hsuf hb)).2
    rw [coverFrom_eq_child h hne hk (by omega) (by omega)]
    exact ih (k :: a) hka

end TreeEdit.Tree
