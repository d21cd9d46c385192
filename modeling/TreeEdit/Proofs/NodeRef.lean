import TreeEdit.NodeRef
import TreeEdit.Proofs.Tree.Search
/-!
# References find their nodes again

A reference is looked up by the span of its node. `resolve_capture` says that this
is enough: in an ordered tree the reference to a node that is not empty finds
exactly that node, also where other nodes cover the same span. The reference to
an empty node may find nothing, and no reference finds a node that is not its own
or of another revision.
-/

namespace TreeEdit.NodeRef

/-- Climbing from below finds the node, if all nodes on the way cover its span. -/
theorem seek_of_suffix {r : NodeRef} {t : Tree} {b : Address} (h : r.address <:+ b)
    (hs : ∀ c, r.address <:+ c → c <:+ b → t.spanAt c = r.span) : r.seek t b = some r.address := by
  induction b with
  | nil =>
    have he : r.address = [] := List.suffix_nil.1 h
    simp [seek, he]
  | cons i b ih =>
    unfold seek
    by_cases he : r.address = i :: b
    · rw [if_pos he, he]
    · have hb : r.address <:+ b := (List.suffix_cons_iff.1 h).resolve_left he
      rw [if_neg he, if_pos (hs b hb (List.suffix_cons i b))]
      exact ih hb fun c hc hcb => hs c hc (hcb.trans (List.suffix_cons i b))

/-- What is found lies above the node where the search began, or is that node. -/
theorem suffix_of_seek {r : NodeRef} {t : Tree} {a b : Address} (h : r.seek t b = some a) :
    a <:+ b := by
  induction b with
  | nil =>
    unfold seek at h
    split at h
    · exact Option.some.inj h ▸ List.suffix_refl _
    · simp at h
  | cons i b ih =>
    unfold seek at h
    split at h
    · exact Option.some.inj h ▸ List.suffix_refl _
    · split at h
      · exact (ih h).trans (List.suffix_cons i b)
      · simp at h

/-- Whatever a reference finds is a node of the tree. -/
theorem has_of_resolve {r : NodeRef} {t : Tree} {n : Nat} {a : Address}
    (h : r.resolve t n = some a) : t.has a = true := by
  unfold resolve at h
  split at h
  · exact Tree.has_of_suffix (suffix_of_seek h) (t.has_covering _ _)
  · simp at h

/-- The nodes that the search for a node's span visits from that node on cover the same span. -/
theorem spanAt_of_between {t : Tree} (ht : t.Ordered) {a c : Address} (hac : a <:+ c)
    (hc : c <:+ t.covering (t.spanAt a).start (t.spanAt a).stop) : t.spanAt c = t.spanAt a := by
  cases c with
  | nil => rw [List.suffix_nil.1 hac]
  | cons i c =>
    -- A node below `a` lies inside its span, and a node that the search visits lies around it.
    have hw := ht.within hac
    have hr := Tree.around_of_suffix_covering hc
    have h₁ : (t.spanAt (i :: c)).start = (t.spanAt a).start := by omega
    have h₂ : (t.spanAt (i :: c)).stop = (t.spanAt a).stop := by omega
    cases hs : t.spanAt (i :: c)
    cases ht : t.spanAt a
    simp_all

theorem resolve_capture_of_lt {t : Tree} (ht : t.Ordered) {a : Address} (ha : t.has a = true)
    (hne : (t.spanAt a).start < (t.spanAt a).stop) (n : Nat) :
    (capture t a n).resolve t n = some a := by
  have hc : a <:+ t.covering (t.spanAt a).start (t.spanAt a).stop :=
    Tree.suffix_covering ht hne ha (Nat.le_refl _) (Nat.le_refl _)
  have hr : (capture t a n).resolve t n
      = (capture t a n).seek t (t.covering (t.spanAt a).start (t.spanAt a).stop) := if_pos rfl
  rw [hr]
  exact seek_of_suffix hc fun c hac hcb => spanAt_of_between ht hac hcb

/-- A reference finds its own node or none, in any tree and of any revision. -/
theorem resolve_eq_or_none (r : NodeRef) (t : Tree) (n : Nat) :
    r.resolve t n = some r.address ∨ r.resolve t n = none := by
  cases h : r.resolve t n with
  | none => exact .inr rfl
  | some b => exact .inl (by rw [eq_of_resolve h])

theorem resolve_of_ne {r : NodeRef} {n : Nat} (h : r.revision ≠ n) (t : Tree) :
    r.resolve t n = none := by
  unfold resolve
  rw [if_neg h]

/-- A captured node is found again at its revision unless it is empty; an empty node is found
or nothing is; and at another revision nothing is found, whatever the tree there is. -/
theorem resolve_capture {t : Tree} (ht : t.Ordered) {a : Address} (ha : t.has a = true) (n : Nat) :
    ((t.spanAt a).isEmpty = false → (capture t a n).resolve t n = some a) ∧
    ((t.spanAt a).isEmpty = true →
      (capture t a n).resolve t n = some a ∨ (capture t a n).resolve t n = none) ∧
    ∀ u m, m ≠ n → (capture t a n).resolve u m = none := by
  refine ⟨fun hne => ?_, fun _ => resolve_eq_or_none _ t n, fun u m hm => ?_⟩
  · refine resolve_capture_of_lt ht ha ?_ n
    simpa [Span.isEmpty] using hne
  · exact resolve_of_ne (Ne.symm hm) u

/-- The text `[1]` in three nodes that all cover the whole text, with one missing token before
the number and two behind it. -/
def wrapped : Tree :=
  let leaf (kind : String) (start stop : Nat) : Tree :=
    .node ⟨kind, true, false, start == stop, ⟨start, stop⟩⟩ []
  let wrap (kind : String) (ts : List Tree) : Tree :=
    .node ⟨kind, true, false, false, ⟨0, 3⟩⟩ ts
  wrap "document" [wrap "value" [wrap "array" [leaf "[" 0 1, leaf "," 1 1, leaf "number" 1 2,
    leaf "," 2 2, leaf "number" 2 2, leaf "]" 2 3]]]

/-- The middle one of three nodes with one span is found, and so is the number behind an empty
node; the second of two empty nodes at one place is not. -/
theorem resolve_capture_wrapped :
    wrapped.Ordered ∧ (capture wrapped [0] 7).resolve wrapped 7 = some [0] ∧
    (capture wrapped [2, 0, 0] 7).resolve wrapped 7 = some [2, 0, 0] ∧
    (capture wrapped [4, 0, 0] 7).resolve wrapped 7 = none ∧
    (capture wrapped [0] 7).resolve wrapped 8 = none :=
  ⟨by decide, (resolve_capture (by decide) rfl 7).1 (by decide),
    (resolve_capture (by decide) rfl 7).1 (by decide), by decide,
    (resolve_capture (by decide) rfl 7).2.2 wrapped 8 (by decide)⟩

end TreeEdit.NodeRef
