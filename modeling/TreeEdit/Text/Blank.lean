import TreeEdit.Text.Basic
/-!
# Blanks and words

A blank is a character with the Unicode property `White_Space`. Words are the
maximal runs of characters that are not blank. Indentation is narrower: it
knows the space and the tab only.
-/

namespace TreeEdit

/-- The code points with the property `White_Space`, as ranges in ascending order. -/
def blankRanges : List (Nat × Nat) :=
  [(0x09, 0x0D), (0x20, 0x20), (0x85, 0x85), (0xA0, 0xA0), (0x1680, 0x1680), (0x2000, 0x200A),
    (0x2028, 0x2029), (0x202F, 0x202F), (0x205F, 0x205F), (0x3000, 0x3000)]

/-- The character has the property `White_Space`. -/
def isBlank (c : Char) : Bool := blankRanges.any fun r => r.1 ≤ c.toNat && c.toNat ≤ r.2

/-- The character counts as indentation at the start of a line. -/
def isIndent (c : Char) : Bool := c == ' ' || c == '\t'

theorem isBlank_of_isIndent {c : Char} (h : isIndent c = true) : isBlank c = true := by
  simp only [isIndent, Bool.or_eq_true, beq_iff_eq] at h
  rcases h with rfl | rfl <;> decide

namespace Text

/-- The pieces between the characters that satisfy `p`: one more than there are such characters. -/
def splitWhere (p : Char → Bool) : Text → List Text
  | [] => [[]]
  | c :: t =>
    if p c then [] :: splitWhere p t
    else match splitWhere p t with
      | [] => [[c]]
      | w :: ws => (c :: w) :: ws

/-- The maximal runs of characters that are not blank. -/
def words (t : Text) : List Text := (splitWhere isBlank t).filter fun w => !w.isEmpty

/-- The pieces between newlines. -/
def pieces (t : Text) : List Text := splitWhere (· == '\n') t

/-- The text without the blanks at its two ends. -/
def trim (t : Text) : Text := ((t.dropWhile isBlank).reverse.dropWhile isBlank).reverse

def allBlank (t : Text) : Bool := t.all isBlank

/-- The indentation that the text starts with. -/
def indentation (t : Text) : Text := t.takeWhile isIndent

/-- The parts put together, with `sep` between neighbours. -/
def join (sep : Text) : List Text → Text
  | [] => []
  | [t] => t
  | t :: ts => t ++ sep ++ join sep ts

theorem splitWhere_ne_nil (p : Char → Bool) (t : Text) : splitWhere p t ≠ [] := by
  cases t with
  | nil => simp [splitWhere]
  | cons c t =>
    unfold splitWhere
    split
    · simp
    · split <;> simp

/-- Putting newlines between the pieces gives the text back. -/
theorem join_pieces (t : Text) : join ['\n'] (pieces t) = t := by
  unfold pieces
  induction t with
  | nil => rfl
  | cons c t ih =>
    unfold splitWhere
    have hne := splitWhere_ne_nil (· == '\n') t
    split
    · rename_i hc
      obtain ⟨w, ws, h⟩ := List.exists_cons_of_ne_nil hne
      rw [h] at ih
      rw [h, join, ih]
      · simp_all
      · simp
    · split
      · contradiction
      · rename_i w ws h
        rw [h] at ih
        cases ws with
        | nil => simpa [join] using ih
        | cons v vs => simpa [join] using ih

theorem newline_not_mem_of_mem_pieces {t w : Text} (h : w ∈ pieces t) : '\n' ∉ w := by
  unfold pieces at h
  induction t generalizing w with
  | nil => simp_all [splitWhere]
  | cons c t ih =>
    unfold splitWhere at h
    split at h
    · rcases List.mem_cons.1 h with rfl | h
      · simp
      · exact ih h
    · rename_i hc
      have hc' : ¬ '\n' = c := fun e => hc (by simp [← e])
      split at h
      · simp_all
      · rename_i v vs hv
        rcases List.mem_cons.1 h with rfl | h
        · have := ih (w := v) (by simp [hv])
          simp [hc', this]
        · exact ih (by simp [hv, h])

end Text

end TreeEdit
