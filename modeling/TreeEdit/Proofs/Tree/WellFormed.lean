import TreeEdit.Parser
import TreeEdit.Text.Blank
/-!
# Well-formed trees

What a parser promises of its answers: in every node the children lie one behind
the other inside the node (`Ordered`), and every node starts and stops at a
boundary of the text (`Fits`). Nodes may be empty, and may cover the same span
as their parent.

`Ordered` is stated along the recursion of a tree. `Ordered.child_within` and
`Ordered.within` say the same of addresses, which is how the rest of the
theory uses it.
-/

namespace TreeEdit

namespace Tree

mutual

/-- The labels of all nodes, in the order of a walk from the root. -/
def labels : Tree → List Label
  | node l ts => l :: labelsOf ts

/-- The labels of the nodes of several trees. -/
def labelsOf : List Tree → List Label
  | [] => []
  | t :: ts => t.labels ++ labelsOf ts

end

mutual

/-- In every node the children lie one behind the other inside the node. -/
def Ordered : Tree → Prop
  | node l ts => OrderedIn l.span.start l.span.stop ts

/-- The trees are ordered, and lie one behind the other between two offsets. -/
def OrderedIn : Nat → Nat → List Tree → Prop
  | lo, hi, [] => lo ≤ hi
  | lo, hi, t :: ts => lo ≤ t.span.start ∧ t.Ordered ∧ OrderedIn t.span.stop hi ts

end

mutual

instance decidableOrdered : (t : Tree) → Decidable t.Ordered
  | node l ts => decidableOrderedIn l.span.start l.span.stop ts

instance decidableOrderedIn : (lo hi : Nat) → (ts : List Tree) → Decidable (OrderedIn lo hi ts)
  | lo, hi, [] => inferInstanceAs (Decidable (lo ≤ hi))
  | lo, hi, t :: ts =>
    let _ := decidableOrdered t
    let _ := decidableOrderedIn t.span.stop hi ts
    inferInstanceAs (Decidable (lo ≤ t.span.start ∧ t.Ordered ∧ OrderedIn t.span.stop hi ts))

end

/-- Every node starts and stops at a boundary of the text. -/
def Fits (t : Tree) (x : Text) : Prop :=
  ∀ l ∈ t.labels, x.isBoundary l.span.start = true ∧ x.isBoundary l.span.stop = true

instance (t : Tree) (x : Text) : Decidable (t.Fits x) :=
  inferInstanceAs (Decidable (∀ l ∈ t.labels, _ ∧ _))

/-- The tree is an answer that a parser may give to the text. -/
structure WellFormed (t : Tree) (x : Text) : Prop where
  ordered : t.Ordered
  fits : t.Fits x

instance (t : Tree) (x : Text) : Decidable (t.WellFormed x) :=
  decidable_of_iff (t.Ordered ∧ t.Fits x) ⟨fun h => ⟨h.1, h.2⟩, fun h => ⟨h.1, h.2⟩⟩

end Tree

/-- Every answer of the parser is well formed. -/
def Parser.WellFormed (P : Parser) : Prop := ∀ n x, (P n x).WellFormed x

namespace Tree

/-! ## Nodes and addresses -/

theorem has_cons {t : Tree} {i : Nat} {a : Address} :
    t.has (i :: a) = true ↔ t.has a = true ∧ i < (t.sub a).children.length := by
  simp [has]

theorem has_of_suffix {t : Tree} {a b : Address} (h : a <:+ b) (hb : t.has b = true) :
    t.has a = true := by
  obtain ⟨c, rfl⟩ := h
  induction c with
  | nil => exact hb
  | cons i c ih => exact ih (has_of_has_cons hb)

/-- No node lies below itself. -/
theorem not_cons_suffix (i : Nat) (a : Address) : ¬ i :: a <:+ a := by
  intro h
  have hl := h.length_le
  simp only [List.length_cons] at hl
  omega

theorem sub_cons_of_le {t : Tree} {i : Nat} {a : Address} (h : (t.sub a).children.length ≤ i) :
    t.sub (i :: a) = t.sub a := by
  simp [sub_cons, List.getElem?_eq_none h]

theorem sub_cons_mem {t : Tree} {i : Nat} {a : Address} (h : i < (t.sub a).children.length) :
    t.sub (i :: a) ∈ (t.sub a).children := by
  rw [sub_cons_of_lt h]
  exact List.getElem_mem h

/-- The first of the children from index `i` on is the one at `i`. -/
theorem drop_children {t u : Tree} {us : List Tree} {i : Nat} {a : Address}
    (h : (t.sub a).children.drop i = u :: us) : i < (t.sub a).children.length ∧
      t.sub (i :: a) = u ∧ (t.sub a).children.drop (i + 1) = us := by
  have hi : i < (t.sub a).children.length := by
    have := congrArg List.length h
    simp only [List.length_drop, List.length_cons] at this
    omega
  rw [List.drop_eq_getElem_cons hi] at h
  rw [sub_cons_of_lt hi]
  exact ⟨hi, List.cons.inj h⟩

theorem labels_sublist_labelsOf {t : Tree} {ts : List Tree} (h : t ∈ ts) :
    t.labels.Sublist (labelsOf ts) := by
  induction ts with
  | nil => simp at h
  | cons u ts ih =>
    rw [labelsOf]
    rcases List.mem_cons.1 h with rfl | h
    · exact List.sublist_append_left _ _
    · exact (ih h).trans (List.sublist_append_right _ _)

theorem label_sub_mem (t : Tree) (a : Address) : (t.sub a).label ∈ t.labels := by
  -- All labels of the part are, and this is what the induction on the address carries.
  suffices h : ∀ l ∈ (t.sub a).labels, l ∈ t.labels by
    refine h _ ?_
    cases t.sub a
    simp [label, labels]
  induction a with
  | nil => exact fun l hl => hl
  | cons i a ih =>
    intro l hl
    by_cases hi : i < (t.sub a).children.length
    · refine ih l ?_
      have hm := (labels_sublist_labelsOf (sub_cons_mem hi)).subset hl
      cases hs : t.sub a
      rw [hs] at hm
      simp [labels, children] at hm ⊢
      exact .inr hm
    · rw [sub_cons_of_le (by omega)] at hl
      exact ih l hl

theorem Fits.start {t : Tree} {x : Text} (h : t.Fits x) (a : Address) :
    x.isBoundary (t.spanAt a).start = true := (h _ (label_sub_mem t a)).1

theorem Fits.stop {t : Tree} {x : Text} (h : t.Fits x) (a : Address) :
    x.isBoundary (t.spanAt a).stop = true := (h _ (label_sub_mem t a)).2

/-! ## Order by index -/

mutual

theorem Ordered.start_le_stop : ∀ {t : Tree}, t.Ordered → t.span.start ≤ t.span.stop
  | node _ _, h => OrderedIn.le h

theorem OrderedIn.le : ∀ {lo hi : Nat} {ts : List Tree}, OrderedIn lo hi ts → lo ≤ hi
  | _, _, [], h => h
  | _, _, _ :: _, ⟨h₁, h₂, h₃⟩ => Nat.le_trans h₁ (Nat.le_trans h₂.start_le_stop h₃.le)

end

theorem OrderedIn.of_mem {lo hi : Nat} {ts : List Tree} (h : OrderedIn lo hi ts) {t : Tree}
    (ht : t ∈ ts) : t.Ordered ∧ lo ≤ t.span.start ∧ t.span.stop ≤ hi := by
  induction ts generalizing lo with
  | nil => simp at ht
  | cons u ts ih =>
    obtain ⟨h₁, h₂, h₃⟩ := h
    rcases List.mem_cons.1 ht with rfl | ht
    · exact ⟨h₂, h₁, h₃.le⟩
    · obtain ⟨ho, hl, hr⟩ := ih h₃ ht
      have := h₂.start_le_stop
      exact ⟨ho, by omega, hr⟩

/-- Of two of the trees, the earlier one stops before the later one starts. -/
theorem OrderedIn.pairwise {lo hi : Nat} {ts : List Tree} (h : OrderedIn lo hi ts) :
    ts.Pairwise fun t u => t.span.stop ≤ u.span.start := by
  induction ts generalizing lo with
  | nil => exact .nil
  | cons t ts ih =>
    obtain ⟨-, -, h₃⟩ := h
    exact .cons (fun u hu => (h₃.of_mem hu).2.1) (ih h₃)

theorem Ordered.children {t : Tree} (h : t.Ordered) :
    OrderedIn t.span.start t.span.stop t.children := by
  cases t
  exact h

/-! ## Order by address -/

theorem Ordered.sub {t : Tree} (h : t.Ordered) (a : Address) : (t.sub a).Ordered := by
  induction a with
  | nil => exact h
  | cons i a ih =>
    by_cases hi : i < (t.sub a).children.length
    · exact (ih.children.of_mem (sub_cons_mem hi)).1
    · rwa [sub_cons_of_le (by omega)]

theorem Ordered.spanAt_le {t : Tree} (h : t.Ordered) (a : Address) :
    (t.spanAt a).start ≤ (t.spanAt a).stop := (h.sub a).start_le_stop

theorem Ordered.child_within {t : Tree} (h : t.Ordered) (i : Nat) (a : Address) :
    (t.spanAt a).start ≤ (t.spanAt (i :: a)).start ∧
      (t.spanAt (i :: a)).stop ≤ (t.spanAt a).stop := by
  by_cases hi : i < (t.sub a).children.length
  · exact ((h.sub a).children.of_mem (sub_cons_mem hi)).2
  · simp [spanAt, sub_cons_of_le (Nat.le_of_not_lt hi)]

theorem Ordered.within {t : Tree} (h : t.Ordered) {a b : Address} (hs : a <:+ b) :
    (t.spanAt a).start ≤ (t.spanAt b).start ∧ (t.spanAt b).stop ≤ (t.spanAt a).stop := by
  obtain ⟨c, rfl⟩ := hs
  induction c with
  | nil => simp
  | cons i c ih =>
    have := h.child_within i (c ++ a)
    simp only [List.cons_append]
    omega

/-! ## A well-formed parser -/

/-- One node for each character that is not blank, from an offset on. -/
def letters : Nat → Text → List Tree
  | _, [] => []
  | o, c :: t =>
    if isBlank c then letters (o + c.utf8Size) t
    else node ⟨"letter", true, false, false, ⟨o, o + c.utf8Size⟩⟩ [] :: letters (o + c.utf8Size) t

theorem orderedIn_letters (t : Text) :
    ∀ lo o, lo ≤ o → OrderedIn lo (o + t.size) (letters o t) := by
  induction t with
  | nil => exact fun lo o h => h
  | cons c t ih =>
    intro lo o h
    rw [letters, Text.size_cons, ← Nat.add_assoc]
    split
    · exact ih lo _ (by omega)
    · exact ⟨h, Nat.le_add_right _ _, ih _ _ (Nat.le_refl _)⟩

theorem boundaries_letters (t : Text) : ∀ (x : Text), ∀ l ∈ labelsOf (letters x.size t),
    (x ++ t).isBoundary l.span.start = true ∧ (x ++ t).isBoundary l.span.stop = true := by
  induction t with
  | nil => simp [letters, labelsOf]
  | cons c t ih =>
    intro x l hl
    have hx : x.size + c.utf8Size = (x ++ [c]).size := by simp
    have ht : x ++ c :: t = (x ++ [c]) ++ t := by simp
    rw [letters, hx] at hl
    -- The node of `c` lies between the sizes of `x` and `x ++ [c]`; all others come later.
    split at hl
    · rw [ht]
      exact ih _ l hl
    · rw [labelsOf, List.mem_append] at hl
      rcases hl with hl | hl
      · obtain rfl : l = _ := by simpa [labels, labelsOf] using hl
        exact ⟨Text.isBoundary_iff.2 ⟨x, c :: t, rfl, rfl⟩,
          Text.isBoundary_iff.2 ⟨x ++ [c], t, ht, hx.symm⟩⟩
      · rw [ht]
        exact ih _ l hl

end Tree

/-- A parser that knows letters and nothing else. -/
def Parser.letters : Parser := fun _ x =>
  .node ⟨"text", true, false, false, ⟨0, x.size⟩⟩ (Tree.letters 0 x)

theorem Parser.wellFormed_letters : letters.WellFormed := by
  intro n x
  constructor
  · have ho := Tree.orderedIn_letters x 0 0 (Nat.le_refl 0)
    rwa [Nat.zero_add] at ho
  · intro l hl
    rcases List.mem_cons.1 hl with rfl | hl
    · exact ⟨Text.isBoundary_zero x, Text.isBoundary_size x⟩
    · exact Tree.boundaries_letters x [] l hl

/-- A parser that knows the trees of some texts, and letters in any other. -/
def Parser.knowing (known : List (Text × Tree)) : Parser := fun n x =>
  (known.lookup x).getD (letters n x)

theorem Parser.wellFormed_knowing {known : List (Text × Tree)}
    (h : ∀ k ∈ known, k.2.WellFormed k.1) : (knowing known).WellFormed := by
  intro n x
  unfold knowing
  cases hx : known.lookup x with
  | none => exact wellFormed_letters n x
  | some t =>
    obtain ⟨xs, ys, rfl, -⟩ := List.lookup_eq_some_iff.1 hx
    exact h (x, t) (by simp)

end TreeEdit
