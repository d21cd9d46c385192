import TreeEdit.Engine.Basic
import TreeEdit.Move
import TreeEdit.Tree.Visible
/-!
# Movements and predicates

A movement takes up to a given number of equal steps from the selected node and
selects the last node it reaches. A predicate asks where the selected node
stands and moves nothing.
-/

namespace TreeEdit

/-- The ways to step from a node to another. -/
inductive Motion where
  | previous
  | next
  | parent
  | child
deriving DecidableEq, Repr

namespace Motion

/-- The node one step away. At the root, the step to the parent stays. -/
def step (t : Tree) : Motion → Address → Option Address
  | previous => t.previous?
  | next => t.next?
  | parent => fun a => some (t.visibleParent a)
  | child => t.visibleChild?

def unit : Motion → Move
  | previous => .previous
  | next => .next
  | parent => .parent
  | child => .child

end Motion

/-- Takes up to `n` steps, as long as they lead to another node: the number of steps taken
and the node reached. -/
def Tree.stepsFrom (step : Address → Option Address) : Nat → Address → Nat × Address
  | 0, a => (0, a)
  | n + 1, a =>
    match step a with
    | none => (0, a)
    | some b =>
      if b = a then (0, a)
      else
        let (k, c) := stepsFrom step n b
        (k + 1, c)

/-- What can be asked of the selected node. -/
inductive Predicate where
  | root
  /-- Its parent is the root. -/
  | treeRoot
  | first
  | last
  /-- It is the first node below the root. -/
  | initial
  /-- It is the last node below the root. -/
  | final
deriving DecidableEq, Repr

def Predicate.holds (t : Tree) (a : Address) : Predicate → Bool
  | root => a.length == 0
  | treeRoot => a.length == 1
  | first => (t.previous? a).isNone
  | last => (t.next? a).isNone
  | initial => a.length == 1 && (t.previous? a).isNone
  | final => a.length == 1 && (t.next? a).isNone

namespace Engine

variable (P : Parser)

/-- Moves up to `count` steps and returns the displacement. -/
def move (m : Motion) (count : Nat) (e : Engine) : Move × Engine :=
  match e.breakSequence.focus P with
  | (none, e) => (.none, e)
  | (some a, e) =>
    let t := e.tree P
    let (k, b) := Tree.stepsFrom (m.step t) count a
    if k = 0 then (.none, e)
    else (m.unit.times k, e.select (NodeRef.capture t b e.buffer.revision))

/-- Asks a predicate of the selected node; without one, the answer is no. -/
def ask (p : Predicate) (e : Engine) : Bool × Engine :=
  match e.focus P with
  | (none, e) => (false, e)
  | (some a, e) => (p.holds (e.tree P) a, e)

end Engine

end TreeEdit
