import TreeEdit.Text.Numeral
import TreeEdit.Text.Quoted
import TreeEdit.Tree.Search
/-!
# References to nodes

A reference keeps a node of one revision in mind without keeping the tree. It
is looked up again by its span: first the smallest node around the span, then
the nodes above that cover the same span, until the one with its address is
found. In a tree of another revision it finds nothing.
-/

namespace TreeEdit

/-- A node of the tree of one revision. -/
structure NodeRef where
  address : Address
  span : Span
  kind : String
  revision : Nat
deriving DecidableEq, Repr

namespace NodeRef

/-- The reference to the node at an address. -/
def capture (t : Tree) (a : Address) (revision : Nat) : NodeRef :=
  ⟨a, t.spanAt a, (t.sub a).label.kind, revision⟩

/-- Looks for the node at an address and above it, as long as the nodes above cover its span. -/
def seek (r : NodeRef) (t : Tree) : Address → Option Address
  | [] => if r.address = [] then some [] else none
  | i :: a =>
    if r.address = i :: a then some (i :: a)
    else if t.spanAt a = r.span then r.seek t a
    else none

/-- The node in the tree of a revision. -/
def resolve (r : NodeRef) (t : Tree) (revision : Nat) : Option Address :=
  if r.revision = revision then r.seek t (t.covering r.span.start r.span.stop) else none

/-- The reference in print. The address of a node in memory is left out. -/
def inspect (r : NodeRef) : Text :=
  "NodeRef \x7b id: 0, byte_start: ".toList ++ Numeral.print r.span.start ++ ", byte_end: ".toList
    ++ Numeral.print r.span.stop ++ ", kind: ".toList ++ Text.quoted r.kind.toList
    ++ ", revision: ".toList ++ Numeral.print r.revision ++ " \x7d".toList

/-- A search finds the node of the reference or nothing. -/
theorem eq_of_seek {r : NodeRef} {t : Tree} {a b : Address} (h : r.seek t a = some b) :
    b = r.address := by
  induction a with
  | nil =>
    unfold seek at h
    split at h <;> simp_all
  | cons i a ih =>
    unfold seek at h
    split at h
    · simp_all
    · split at h
      · exact ih h
      · simp at h

theorem eq_of_resolve {r : NodeRef} {t : Tree} {n : Nat} {b : Address}
    (h : r.resolve t n = some b) : b = r.address := by
  unfold resolve at h
  split at h
  · exact eq_of_seek h
  · simp at h

end NodeRef

end TreeEdit
