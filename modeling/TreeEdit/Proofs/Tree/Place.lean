import TreeEdit.Proofs.NodeRef
import TreeEdit.Proofs.Tree.Siblings
/-!
# Nodes that a search meets

From a node the search for some bytes goes into at most one child (`Enters`), so it
passes through a node exactly if it enters every node on the way from the root:
`cons_suffix_covering_iff` says so for any bytes and any tree.

For an empty node this decides whether a reference to it finds it again, and
`resolve_capture_iff` puts it in terms of the tree: the nodes around it must not stop at
its place, unless they are empty too, and no empty node at its place may come before.
-/

namespace TreeEdit

namespace Tree

variable {t : Tree} {start stop i j : Nat} {a : Address}

/-! ## The way of the search -/

/-- From the node at `a` the search goes into the child at `i`: the first child that does not lie
before the bytes, if it does not start behind their start. -/
structure Enters (t : Tree) (start stop : Nat) (a : Address) (i : Nat) : Prop where
  lt_length : i < (t.sub a).children.length
  passed : ∀ j < i, liesBefore (t.spanAt (j :: a)) start stop = true
  reached : liesBefore (t.spanAt (i :: a)) start stop = false
  start_le : (t.spanAt (i :: a)).start ≤ start

theorem Enters.unique (hi : t.Enters start stop a i) (hj : t.Enters start stop a j) : i = j := by
  rcases Nat.lt_trichotomy i j with hlt | heq | hlt
  · simpa [hi.reached] using hj.passed i hlt
  · exact heq
  · simpa [hj.reached] using hi.passed j hlt

/-- The search among the children from index `i` on, when all before have been passed. -/
theorem coverAmong_cases (us : List Tree) (i : Nat) (hd : (t.sub a).children.drop i = us)
    (hb : ∀ j < i, liesBefore (t.spanAt (j :: a)) start stop = true) :
    (∃ k, t.Enters start stop a k ∧
      coverAmong start stop us i a = coverFrom start stop (t.sub (k :: a)) (k :: a)) ∨
    ((∀ k, ¬ t.Enters start stop a k) ∧ coverAmong start stop us i a = a) := by
  induction us generalizing i with
  | nil =>
    refine .inr ⟨fun k hk => ?_, rfl⟩
    have hi := List.drop_eq_nil_iff.1 hd
    have hlt := hk.lt_length
    simpa [hb k (by omega)] using hk.reached
  | cons u us ih =>
    obtain ⟨hi, hu, hd'⟩ := drop_children hd
    have hs : u.span = t.spanAt (i :: a) := by rw [spanAt, hu]
    rw [coverAmong, hs]
    split
    · rename_i hl
      refine ih (i + 1) hd' fun j hj => ?_
      rcases Nat.lt_succ_iff_lt_or_eq.1 hj with hj | rfl
      · exact hb j hj
      · exact hl
    · rename_i hl
      have hl' : liesBefore (t.spanAt (i :: a)) start stop = false := by simpa using hl
      split
      · -- The child starts behind the bytes: the search ends here.
        rename_i hlt
        refine .inr ⟨fun k hk => ?_, rfl⟩
        rcases Nat.lt_trichotomy k i with hki | rfl | hki
        · simpa [hb k hki] using hk.reached
        · have := hk.start_le
          omega
        · exact hl (hk.passed i hki)
      · rename_i hge
        exact .inl ⟨i, ⟨hi, hb, hl', by omega⟩, by rw [hu]⟩

theorem coverFrom_cases (t : Tree) (start stop : Nat) (a : Address) :
    (∃ k, t.Enters start stop a k ∧
      coverFrom start stop (t.sub a) a = coverFrom start stop (t.sub (k :: a)) (k :: a)) ∨
    ((∀ k, ¬ t.Enters start stop a k) ∧ coverFrom start stop (t.sub a) a = a) := by
  have hc : coverFrom start stop (t.sub a) a = coverAmong start stop (t.sub a).children 0 a := by
    cases t.sub a
    rfl
  rw [hc]
  exact coverAmong_cases _ 0 rfl fun j hj => by omega

/-- A search that passes through a node goes on from there. -/
theorem covering_eq_of_suffix (h : a <:+ t.covering start stop) :
    t.covering start stop = coverFrom start stop (t.sub a) a := by
  induction a with
  | nil => rfl
  | cons i a ih =>
    have ha := ih ((List.suffix_cons i a).trans h)
    rcases coverFrom_cases t start stop a with ⟨k, -, hc⟩ | ⟨-, hc⟩
    · rw [hc] at ha
      have hk : k :: a <:+ t.covering start stop := ha ▸ suffix_coverFrom t start stop (k :: a)
      -- Both children end the same address at the same length.
      have hik := (List.suffix_of_suffix_length_le h hk (by simp)).eq_of_length (by simp)
      rw [ha, hik]
    · rw [ha, hc] at h
      exact (not_cons_suffix i a h).elim

/-- The search passes through a node exactly if it passes through the parent and from there goes
into the node. -/
theorem cons_suffix_covering_iff : i :: a <:+ t.covering start stop ↔
    a <:+ t.covering start stop ∧ t.Enters start stop a i := by
  constructor
  · intro h
    have ha := (List.suffix_cons i a).trans h
    refine ⟨ha, ?_⟩
    rw [covering_eq_of_suffix ha] at h
    rcases coverFrom_cases t start stop a with ⟨k, hk, hc⟩ | ⟨-, hc⟩
    · rw [hc] at h
      have hs := suffix_coverFrom t start stop (k :: a)
      have hik := (List.suffix_of_suffix_length_le h hs (by simp)).eq_of_length (by simp)
      rwa [(List.cons.inj hik).1]
    · rw [hc] at h
      exact (not_cons_suffix i a h).elim
  · rintro ⟨ha, hi⟩
    rw [covering_eq_of_suffix ha]
    rcases coverFrom_cases t start stop a with ⟨k, hk, hc⟩ | ⟨hn, -⟩
    · rw [hc, hi.unique hk]
      exact suffix_coverFrom t start stop (k :: a)
    · exact (hn i hi).elim

/-! ## Empty nodes -/

/-- On the way to the node at an address, every node is empty or stops behind the offset, and has no
sibling before it that is an empty node at the offset. -/
def Met (t : Tree) (p : Nat) : Address → Prop
  | [] => True
  | i :: a => t.Met p a ∧ ((t.spanAt (i :: a)).isEmpty = true ∨ p < (t.spanAt (i :: a)).stop) ∧
      ∀ j < i, t.spanAt (j :: a) ≠ ⟨p, p⟩

instance decidableMet (t : Tree) (p : Nat) : (a : Address) → Decidable (t.Met p a)
  | [] => inferInstanceAs (Decidable True)
  | i :: a =>
    let _ := decidableMet t p a
    inferInstanceAs (Decidable (t.Met p a ∧
      ((t.spanAt (i :: a)).isEmpty = true ∨ p < (t.spanAt (i :: a)).stop) ∧
        ∀ j < i, t.spanAt (j :: a) ≠ ⟨p, p⟩))

theorem liesBefore_place_eq_false {s : Span} {p : Nat} (h : p ≤ s.stop) :
    liesBefore s p p = false ↔ s.isEmpty = true ∨ p < s.stop := by
  have hp : ¬ s.stop < p := by omega
  cases he : s.isEmpty <;> simp [liesBefore, he, hp]

/-- What stops at an offset or before it is passed by, unless it is an empty node right there. -/
theorem liesBefore_place_eq_true {s : Span} {p : Nat} (hs : s.start ≤ s.stop) (h : s.stop ≤ p) :
    liesBefore s p p = true ↔ s ≠ ⟨p, p⟩ := by
  obtain ⟨m, n⟩ := s
  dsimp only at hs h
  by_cases he : n ≤ m
  · have hl : liesBefore ⟨m, n⟩ p p = decide (n < p) := by simp [liesBefore, Span.isEmpty, he]
    rw [hl, decide_eq_true_eq, Ne, Span.mk.injEq]
    omega
  · have hl : liesBefore ⟨m, n⟩ p p = true := by simp [liesBefore, Span.isEmpty, he, h]
    refine iff_of_true hl ?_
    rw [Ne, Span.mk.injEq]
    omega

theorem enters_place_iff (h : t.Ordered) {p : Nat} (hi : i < (t.sub a).children.length)
    (hs : (t.spanAt (i :: a)).start ≤ p) (ht : p ≤ (t.spanAt (i :: a)).stop) :
    t.Enters p p a i ↔ ((t.spanAt (i :: a)).isEmpty = true ∨ p < (t.spanAt (i :: a)).stop) ∧
      ∀ j < i, t.spanAt (j :: a) ≠ ⟨p, p⟩ := by
  have hj (j : Nat) (hj : j < i) :
      liesBefore (t.spanAt (j :: a)) p p = true ↔ t.spanAt (j :: a) ≠ ⟨p, p⟩ :=
    liesBefore_place_eq_true (h.spanAt_le _) (Nat.le_trans (h.stop_le_start hj hi) hs)
  rw [← liesBefore_place_eq_false ht]
  constructor
  · intro he
    exact ⟨he.reached, fun j hji => (hj j hji).1 (he.passed j hji)⟩
  · rintro ⟨hr, hp⟩
    exact ⟨hi, fun j hji => (hj j hji).2 (hp j hji), hr, hs⟩

/-- In an ordered tree, the search for an offset passes through a node around it exactly if the
node is met. -/
theorem suffix_covering_place_iff (h : t.Ordered) {p : Nat} (ha : t.has a = true)
    (hs : (t.spanAt a).start ≤ p) (ht : p ≤ (t.spanAt a).stop) :
    a <:+ t.covering p p ↔ t.Met p a := by
  induction a with
  | nil => simp [Met]
  | cons i a ih =>
    obtain ⟨ha, hi⟩ := has_cons.1 ha
    have hw := h.child_within i a
    rw [cons_suffix_covering_iff, ih ha (by omega) (by omega), enters_place_iff h hi hs ht, Met]

end Tree

/-- A captured node is found again exactly if the search for its span passes through it. -/
theorem NodeRef.resolve_capture_iff_suffix {t : Tree} (ht : t.Ordered) (a : Address) (n : Nat) :
    (capture t a n).resolve t n = some a ↔
      a <:+ t.covering (t.spanAt a).start (t.spanAt a).stop := by
  have hr : (capture t a n).resolve t n
      = (capture t a n).seek t (t.covering (t.spanAt a).start (t.spanAt a).stop) := if_pos rfl
  rw [hr]
  constructor
  · exact suffix_of_seek
  · exact fun h => seek_of_suffix h fun c hac hcb => spanAt_of_between ht hac hcb

/-- A captured node is found again exactly if it is not empty or is met at its place. -/
theorem NodeRef.resolve_capture_iff {t : Tree} (ht : t.Ordered) {a : Address}
    (ha : t.has a = true) (n : Nat) : (capture t a n).resolve t n = some a ↔
      (t.spanAt a).isEmpty = false ∨ t.Met (t.spanAt a).start a := by
  have hle := ht.spanAt_le a
  rw [resolve_capture_iff_suffix ht]
  by_cases hne : (t.spanAt a).start < (t.spanAt a).stop
  · refine iff_of_true (Tree.suffix_covering ht hne ha (Nat.le_refl _) (Nat.le_refl _)) (.inl ?_)
    simpa [Span.isEmpty] using hne
  · have hst : (t.spanAt a).stop = (t.spanAt a).start := by omega
    have he : ¬ (t.spanAt a).isEmpty = false := by simpa [Span.isEmpty] using hne
    rw [or_iff_right he, hst, Tree.suffix_covering_place_iff ht ha (Nat.le_refl _) hle]

end TreeEdit
