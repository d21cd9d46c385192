import TreeEdit.Text.Numeral
/-!
# Moves

The net displacement of a movement: steps between siblings and steps between
levels. A movement that got nowhere is `Move.none`.

Moves add component by component. `sum?` adds a list of them in machine words:
it has no answer if a component leaves the range of 64 bits on the way.
-/

namespace TreeEdit

/-- Steps to later siblings and steps to deeper levels, negative for the opposite way. -/
structure Move where
  horizontal : Int
  vertical : Int
deriving DecidableEq, Repr

namespace Move

def none : Move := ⟨0, 0⟩

def previous : Move := ⟨-1, 0⟩

def next : Move := ⟨1, 0⟩

def parent : Move := ⟨0, -1⟩

def child : Move := ⟨0, 1⟩

protected def add (m n : Move) : Move := ⟨m.horizontal + n.horizontal, m.vertical + n.vertical⟩

instance : Add Move := ⟨Move.add⟩

/-- `k` times the same move. -/
def times (k : Nat) (m : Move) : Move := ⟨k * m.horizontal, k * m.vertical⟩

def isNone (m : Move) : Bool := m == none

/-- Number of unit steps in either direction. -/
def magnitude (m : Move) : Nat := m.horizontal.natAbs + m.vertical.natAbs

/-- The sum, if both components are signed numbers of 64 bits. -/
def add? (m n : Move) : Option Move :=
  let s := m + n
  if fitsSigned s.horizontal && fitsSigned s.vertical then some s else Option.none

/-- The sum of a list from the left, if every sum on the way is one of 64-bit numbers. -/
def sum? (ms : List Move) : Option Move := ms.foldlM add? none

/-- The magnitude, if it is a number of 64 bits. -/
def magnitude? (m : Move) : Option Nat :=
  if m.magnitude < wordLimit then some m.magnitude else Option.none

def print (m : Move) : Text :=
  ['('] ++ Numeral.printInt m.horizontal ++ [',', ' '] ++ Numeral.printInt m.vertical ++ [')']

@[simp] theorem add_horizontal (m n : Move) : (m + n).horizontal = m.horizontal + n.horizontal :=
  rfl

@[simp] theorem add_vertical (m n : Move) : (m + n).vertical = m.vertical + n.vertical := rfl

@[simp] theorem times_zero (m : Move) : times 0 m = none := by simp [times, none]

theorem times_succ (k : Nat) (m : Move) : times (k + 1) m = times k m + m := by
  simp only [times]
  change _ = Move.add _ _
  simp only [Move.add, Move.mk.injEq]
  constructor <;> push_cast <;> rw [Int.add_mul, Int.one_mul]

end Move

end TreeEdit
