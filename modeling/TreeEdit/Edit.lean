import TreeEdit.Digest
import TreeEdit.Span
import TreeEdit.Text.Numeral
import TreeEdit.Text.Quoted
/-!
# Verified edits

An edit replaces the bytes of a span and says what it expects to find there.
`Edit.site` finds the place of an edit in a text, or the reason why there is
none. Every change of a buffer is one of these edits.
-/

namespace TreeEdit

/-! ## What an edit expects -/

/-- What an edit expects to find in its span. -/
inductive Verification where
  | literal (t : Text)
  | digest (d : UInt64)
deriving DecidableEq, Repr

namespace Verification

/-- Texts of more bytes than this are verified by their digest. -/
def literalLimit : Nat := 1024

/-- Expects the text `t`. -/
def ofText (t : Text) : Verification :=
  if literalLimit < t.size then .digest t.digest else .literal t

/-- The text is as expected. -/
def accepts : Verification → Text → Bool
  | literal e, t => t == e
  | digest d, t => t.digest == d

def inspect : Verification → Text
  | literal e => "ExactMatch(".toList ++ e.quoted ++ [')']
  | digest d => "Hash(".toList ++ Numeral.print d.toNat ++ [')']

/-- A text is accepted where that text is expected, long or short. -/
theorem accepts_ofText (t : Text) : (ofText t).accepts t = true := by
  unfold ofText
  split <;> simp [accepts]

end Verification

/-! ## Edits and their answers -/

/-- The replacement of a span by another text. -/
structure Edit where
  span : Span
  replacement : Text
  expected : Verification
deriving DecidableEq, Repr

/-- Why an edit was rejected. -/
inductive EditError where
  /-- The span runs backwards or past the end of a text of `size` bytes. -/
  | invalidRange (span : Span) (size : Nat)
  /-- An end of the span falls inside a character. -/
  | notBoundary (offset : Nat)
  /-- The span holds another text than expected. -/
  | mismatch (span : Span) (expected : Verification) (found : Text)
deriving DecidableEq, Repr

/-- What became of an edit. -/
inductive EditResult where
  | applied (start removed inserted : Nat)
  /-- The span held the replacement already. -/
  | alreadyApplied
deriving DecidableEq, Repr

namespace EditError

def message : EditError → Text
  | invalidRange s n => "invalid byte range: [".toList ++ Numeral.print s.start ++ ", ".toList
      ++ Numeral.print s.stop ++ ") in buffer of length ".toList ++ Numeral.print n
  | notBoundary o => "byte offset ".toList ++ Numeral.print o
      ++ " is not on a UTF-8 character boundary".toList
  | mismatch s _ _ => "before-text verification failed at byte ".toList ++ Numeral.print s.start

end EditError

namespace Edit

/-- Replaces `expected`, which stands in the span, by `replacement`. -/
def replace (span : Span) (replacement expected : Text) : Edit :=
  ⟨span, replacement, .ofText expected⟩

def insert (offset : Nat) (t : Text) : Edit := replace ⟨offset, offset⟩ t []

def delete (span : Span) (removed : Text) : Edit := replace span [] removed

/-- By how much the edit changes the size of the text. -/
def delta (e : Edit) : Int := (e.replacement.size : Int) - e.span.size

/-- The text before, in and behind the span of the edit. -/
def site (e : Edit) (t : Text) : Except EditError (Text × Text × Text) :=
  if e.span.stop < e.span.start ∨ t.size < e.span.stop then .error (.invalidRange e.span t.size)
  else if t.isBoundary e.span.start then
    match t.cut? e.span.start e.span.stop with
    | some parts => .ok parts
    | none => .error (.notBoundary e.span.stop)
  else .error (.notBoundary e.span.start)

/-- Where a point at `p` goes: it keeps its distance to the text behind the span, leaves the
inside of the span for its start, and stays where it was before the span. -/
def follow (e : Edit) (p : Nat) : Nat :=
  if e.span.stop ≤ p then p - e.span.size + e.replacement.size
  else if e.span.start < p then e.span.start
  else p

theorem follow_of_stop_le {e : Edit} {p : Nat} (h : e.span.stop ≤ p) :
    e.follow p = p - e.span.size + e.replacement.size := if_pos h

theorem follow_of_inside {e : Edit} {p : Nat} (h : e.span.start < p) (h' : p < e.span.stop) :
    e.follow p = e.span.start := by
  rw [follow, if_neg (by omega), if_pos h]

theorem follow_of_before {e : Edit} {p : Nat} (h : p ≤ e.span.start) (h' : p < e.span.stop) :
    e.follow p = p := by
  rw [follow, if_neg (by omega), if_neg (by omega)]

/-- The site of an edit is the text around its span. -/
theorem site_eq_ok_iff {e : Edit} {t x y z : Text} :
    e.site t = .ok (x, y, z) ↔ t = x ++ y ++ z ∧ x.size = e.span.start ∧
      (x ++ y).size = e.span.stop := by
  constructor
  · intro h
    unfold site at h
    split at h
    · simp at h
    · split at h
      · split at h
        · rename_i parts hc
          cases h
          exact Text.cut?_eq_some_iff.1 hc
        · simp at h
      · simp at h
  · intro h
    obtain ⟨rfl, hx, hy⟩ := h
    have hb : (x ++ y ++ z).isBoundary e.span.start = true :=
      Text.isBoundary_iff.2 ⟨x, y ++ z, by simp, hx⟩
    have hc : (x ++ y ++ z).cut? e.span.start e.span.stop = some (x, y, z) :=
      Text.cut?_eq_some_iff.2 ⟨rfl, hx, hy⟩
    unfold site
    simp only [Text.size_append] at hy
    rw [if_neg (by simp only [Text.size_append]; omega), if_pos hb, hc]

end Edit

end TreeEdit
