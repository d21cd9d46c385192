import TreeEdit.Tree.Basic
/-!
# Siblings

Steps between the named children of one node, and walks of several steps. The
step to the next sibling passes over nodes that stop no later than the node it
starts from, so an empty node right behind is skipped; the step back skips
nothing. A walk that runs out of siblings stays at the last one it reached.
-/

namespace TreeEdit.Tree

/-- The child at an index is there and named. -/
def namedAt (ts : List Tree) (i : Nat) : Bool := (ts[i]?).any named

/-- The nearest named node before index `i`. -/
def previousIndex? (ts : List Tree) (i : Nat) : Option Nat :=
  (List.range i).reverse.find? (namedAt ts)

/-- The first named node behind index `i` that stops behind offset `stop`. -/
def nextIndex? (ts : List Tree) (i stop : Nat) : Option Nat :=
  (List.range' (i + 1) (ts.length - (i + 1))).find? fun j =>
    (ts[j]?).any fun t => t.named && decide (stop < t.span.stop)

def previous? (t : Tree) : Address → Option Address
  | [] => none
  | i :: a => (previousIndex? (t.sub a).children i).map (· :: a)

/-- The next named sibling that stops behind the node. -/
def next? (t : Tree) : Address → Option Address
  | [] => none
  | i :: a => (nextIndex? (t.sub a).children i (t.spanAt (i :: a)).stop).map (· :: a)

/-- The node has a named sibling to step to. -/
def hasSibling (t : Tree) (a : Address) : Bool := (t.previous? a).isSome || (t.next? a).isSome

/-- The `n`-th named child, counted from zero. -/
def namedChild? (t : Tree) (a : Address) (n : Nat) : Option Address :=
  let ts := (t.sub a).children
  (((List.range ts.length).filter (namedAt ts))[n]?).map (· :: a)

/-- Takes up to `n` steps and stays where there is none. -/
def walk (step : Address → Option Address) : Nat → Address → Address
  | 0, a => a
  | n + 1, a =>
    match step a with
    | none => a
    | some b => walk step n b

/-- The `n`-th node along `step`, where the start counts as the first. -/
def nth (step : Address → Option Address) (n : Nat) (a : Address) : Address := walk step (n - 1) a

end TreeEdit.Tree
