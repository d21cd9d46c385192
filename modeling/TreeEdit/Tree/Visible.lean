import TreeEdit.Tree.Sibling
/-!
# Visible levels

A node whose only named child starts where the node itself starts makes one
level with that child. Of such a level the root, a node with siblings and a node
that starts behind its parent are visible; moving up and down visits visible
nodes only.
-/

namespace TreeEdit.Tree

/-- The node is the root, has a sibling, or starts behind its parent. -/
def visible (t : Tree) : Address → Bool
  | [] => true
  | i :: a => t.hasSibling (i :: a) || decide (t.startAt (i :: a) ≠ t.startAt a)

/-- Climbs from the node at an address. The climb ends at a node that starts behind its parent,
other than the node where it began, else at a parent with siblings, else at the root. -/
def climb (t : Tree) (initial : Address) : Address → Address
  | [] => []
  | i :: a =>
    if t.startAt (i :: a) ≠ t.startAt a ∧ i :: a ≠ initial then i :: a
    else if t.hasSibling a then a
    else t.climb initial a

/-- The nearest visible node above an address; the root is its own. -/
def visibleParent (t : Tree) (a : Address) : Address := t.climb a a

mutual

/-- The first visible node on the chain of first named children, below the node at `a`. -/
def visibleBelow (root : Tree) : Tree → Address → Option Address
  | node _ ts, a => visibleAmong root ts 0 a

/-- The same among the children of the node at `a`, from index `i` on. -/
def visibleAmong (root : Tree) : List Tree → Nat → Address → Option Address
  | [], _, _ => none
  | t :: ts, i, a =>
    if t.named then
      if root.visible (i :: a) then some (i :: a) else visibleBelow root t (i :: a)
    else visibleAmong root ts (i + 1) a

end

/-- The first visible node on the chain of first named children. -/
def visibleChild? (t : Tree) (a : Address) : Option Address := visibleBelow t (t.sub a) a

end TreeEdit.Tree
