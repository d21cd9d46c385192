import TreeEdit.Tree.Basic
/-!
# Finding nodes by place

`covering` goes down from the root to the smallest node around a range of
bytes. A range that ends where one node stops and the next one starts belongs to
the next one, and an empty node is entered only where it stands.

`topmost` is the outermost node that starts where the smallest node around an
offset starts, and `spanning?` the outermost node, other than the root, that
covers exactly a span.

A tree holds only the nodes that a parser shows. The tokens that it hides, which
its own search may enter where they are empty, lie outside of this description.
-/

namespace TreeEdit.Tree

/-- The search for the bytes from `start` to `stop` goes on behind a node with this span. -/
def liesBefore (s : Span) (start stop : Nat) : Bool :=
  s.stop < stop || (if s.isEmpty then s.stop < start else s.stop ≤ start)

mutual

/-- The address of the smallest node around the bytes, below the node at `a`. -/
def coverFrom (start stop : Nat) : Tree → Address → Address
  | node _ ts, a => coverAmong start stop ts 0 a

/-- The same among the children of the node at `a`, from index `i` on. -/
def coverAmong (start stop : Nat) : List Tree → Nat → Address → Address
  | [], _, a => a
  | t :: ts, i, a =>
    if liesBefore t.span start stop then coverAmong start stop ts (i + 1) a
    else if start < t.span.start then a
    else coverFrom start stop t (i :: a)

end

/-- The smallest node around the bytes from `start` to `stop`. -/
def covering (t : Tree) (start stop : Nat) : Address := coverFrom start stop t []

/-- The smallest node around an offset. -/
def nodeAt (t : Tree) (offset : Nat) : Address := t.covering offset offset

/-- The outermost of the nodes above, or at, an address that start where its node starts. -/
def outermost (t : Tree) : Address → Address
  | [] => []
  | i :: a => if t.startAt a = t.startAt (i :: a) then t.outermost a else i :: a

/-- The outermost node that starts where the smallest node around the offset starts. -/
def topmost (t : Tree) (offset : Nat) : Address := t.outermost (t.nodeAt offset)

/-- The outermost of the nodes above, or at, an address that cover the span, the root apart. -/
def outermostOver (t : Tree) (s : Span) : Address → Address
  | [] => []
  | i :: a => if a ≠ [] ∧ t.spanAt a = s then t.outermostOver s a else i :: a

/-- The outermost node that covers exactly the span; the root only if no other does. -/
def spanning? (t : Tree) (s : Span) : Option Address :=
  let a := t.covering s.start s.stop
  if t.spanAt a = s then some (t.outermostOver s a) else none

end TreeEdit.Tree
