/-!
# Spans

A span is a range of byte offsets, the start included and the stop not.
-/

namespace TreeEdit

/-- The bytes from `start` up to, and not including, `stop`. -/
structure Span where
  start : Nat
  stop : Nat
deriving DecidableEq, Repr, Inhabited

namespace Span

def size (s : Span) : Nat := s.stop - s.start

def isEmpty (s : Span) : Bool := s.stop ≤ s.start

/-- Where the offset `n` goes when the bytes of the span are removed. -/
def shiftPast (s : Span) (n : Nat) : Nat :=
  if s.stop ≤ n then n - s.size else if s.start < n then s.start else n

end Span

end TreeEdit
