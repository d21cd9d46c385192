/-!
# Text measured in bytes

A text is a list of characters, and an offset into it counts the bytes of its
UTF-8 form. An offset is a boundary if it does not fall inside a character;
only there can a text be taken apart. `splitAt?_eq_some_iff` and
`cut?_eq_some_iff` say what taking apart means: the pieces put together are the
text, and their sizes are the offsets.
-/

namespace TreeEdit

/-- A sequence of characters. Offsets into it are byte offsets. -/
abbrev Text := List Char

namespace Text

/-- Number of bytes of the UTF-8 form. -/
def size : Text → Nat
  | [] => 0
  | c :: t => c.utf8Size + size t

/-- The text before and after byte offset `n`; `none` past the end or inside a character. -/
def splitAt? : Text → Nat → Option (Text × Text)
  | t, 0 => some ([], t)
  | [], _ + 1 => none
  | c :: t, n + 1 =>
    if c.utf8Size ≤ n + 1 then
      (splitAt? t (n + 1 - c.utf8Size)).map fun p => (c :: p.1, p.2)
    else none

/-- Byte offset `n` lies in the text and not inside a character. -/
def isBoundary (t : Text) (n : Nat) : Bool := (splitAt? t n).isSome

/-- The greatest boundary that is at most `n`. -/
def floor : Text → Nat → Nat
  | [], _ => 0
  | c :: t, n => if c.utf8Size ≤ n then c.utf8Size + floor t (n - c.utf8Size) else 0

/-- The text before `a`, from `a` to `b`, and after `b`. -/
def cut? (t : Text) (a b : Nat) : Option (Text × Text × Text) :=
  if a ≤ b then
    (splitAt? t a).bind fun p => (splitAt? p.2 (b - a)).map fun q => (p.1, q.1, q.2)
  else none

/-- The text from byte offset `a` to byte offset `b`. -/
def slice? (t : Text) (a b : Nat) : Option Text := (cut? t a b).map (·.2.1)

def bytes (t : Text) : List UInt8 := t.flatMap String.utf8EncodeChar

/-! ## Sizes -/

@[simp] theorem size_nil : size [] = 0 := rfl

@[simp] theorem size_cons (c : Char) (t : Text) : size (c :: t) = c.utf8Size + size t := rfl

@[simp] theorem size_append (a b : Text) : size (a ++ b) = size a + size b := by
  induction a with
  | nil => simp
  | cons c a ih => simp only [List.cons_append, size_cons, ih]; omega

@[simp] theorem size_reverse (t : Text) : size t.reverse = size t := by
  induction t with
  | nil => rfl
  | cons c t ih => simp only [List.reverse_cons, size_append, size_cons, size_nil, ih]; omega

theorem size_eq_zero_iff {t : Text} : size t = 0 ↔ t = [] := by
  cases t with
  | nil => simp
  | cons c t =>
    have := c.utf8Size_pos
    simp only [size_cons, reduceCtorEq, iff_false]
    omega

/-! ## Taking a text apart -/

@[simp] theorem splitAt?_zero (t : Text) : splitAt? t 0 = some ([], t) := by
  cases t <;> rfl

theorem splitAt?_cons_of_pos {c : Char} {t : Text} {n : Nat} (h : 0 < n) :
    splitAt? (c :: t) n = if c.utf8Size ≤ n then
      (splitAt? t (n - c.utf8Size)).map fun p => (c :: p.1, p.2) else none := by
  cases n with
  | zero => omega
  | succ n => rfl

theorem splitAt?_size_append (a b : Text) : splitAt? (a ++ b) (size a) = some (a, b) := by
  induction a with
  | nil => simp
  | cons c a ih =>
    have := c.utf8Size_pos
    rw [List.cons_append, splitAt?_cons_of_pos (by simp only [size_cons]; omega)]
    simp [ih]

/-- Splitting gives two parts of the text, the first of the asked size. -/
theorem splitAt?_eq_some_iff {t : Text} {n : Nat} {a b : Text} :
    splitAt? t n = some (a, b) ↔ t = a ++ b ∧ size a = n := by
  constructor
  · intro h
    induction t generalizing n a b with
    | nil =>
      cases n with
      | zero => simp_all [splitAt?]
      | succ n => simp [splitAt?] at h
    | cons c t ih =>
      cases n with
      | zero => simp_all [splitAt?]
      | succ n =>
        simp only [splitAt?] at h
        split at h
        · obtain ⟨⟨x, y⟩, hp, he⟩ := Option.map_eq_some_iff.1 h
          obtain ⟨rfl, hs⟩ := ih hp
          obtain ⟨rfl, rfl⟩ := Prod.mk.inj he
          simp only [List.cons_append, size_cons, true_and]
          omega
        · simp at h
  · rintro ⟨rfl, rfl⟩
    exact splitAt?_size_append a b

/-- Two ways to take the same first bytes off a text are the same way. -/
theorem append_inj_of_size {a b a' b' : Text} (h : a ++ b = a' ++ b') (hs : size a = size a') :
    a = a' ∧ b = b' := by
  have h₁ := splitAt?_size_append a b
  rw [h, hs, splitAt?_size_append] at h₁
  simp_all

/-- Cutting gives three parts of the text, ending at the asked offsets. -/
theorem cut?_eq_some_iff {t : Text} {m n : Nat} {a b c : Text} :
    cut? t m n = some (a, b, c) ↔ t = a ++ b ++ c ∧ size a = m ∧ size (a ++ b) = n := by
  unfold cut?
  split
  · rename_i h
    constructor
    · intro hc
      obtain ⟨⟨x, y⟩, hx, hc⟩ := Option.bind_eq_some_iff.1 hc
      obtain ⟨⟨u, v⟩, hu, he⟩ := Option.map_eq_some_iff.1 hc
      obtain ⟨rfl, rfl⟩ := splitAt?_eq_some_iff.1 hx
      obtain ⟨rfl, hs⟩ := splitAt?_eq_some_iff.1 hu
      simp only [Prod.mk.injEq] at he
      obtain ⟨rfl, rfl, rfl⟩ := he
      exact ⟨(List.append_assoc _ _ _).symm, rfl, by simp only [size_append]; omega⟩
    · rintro ⟨rfl, rfl, rfl⟩
      simp only [List.append_assoc, splitAt?_size_append, Option.bind_some, size_append,
        Nat.add_sub_cancel_left, Option.map_some]
  · rename_i h
    simp only [reduceCtorEq, size_append, false_iff, not_and]
    omega

theorem cut?_append (a b c : Text) :
    cut? (a ++ b ++ c) (size a) (size (a ++ b)) = some (a, b, c) :=
  cut?_eq_some_iff.2 ⟨rfl, rfl, rfl⟩

theorem slice?_eq_some_iff {t : Text} {m n : Nat} {b : Text} :
    slice? t m n = some b ↔ ∃ a c, t = a ++ b ++ c ∧ size a = m ∧ size (a ++ b) = n := by
  simp only [slice?, Option.map_eq_some_iff, Prod.exists]
  constructor
  · rintro ⟨a, _, c, h, rfl⟩
    exact ⟨a, c, cut?_eq_some_iff.1 h⟩
  · rintro ⟨a, c, h⟩
    exact ⟨a, b, c, cut?_eq_some_iff.2 h, rfl⟩

/-! ## Boundaries -/

theorem isBoundary_iff {t : Text} {n : Nat} :
    isBoundary t n = true ↔ ∃ a b, t = a ++ b ∧ size a = n := by
  simp only [isBoundary, Option.isSome_iff_exists, Prod.exists, splitAt?_eq_some_iff]

theorem isBoundary_zero (t : Text) : isBoundary t 0 = true := by simp [isBoundary]

theorem isBoundary_size (t : Text) : isBoundary t (size t) = true :=
  isBoundary_iff.2 ⟨t, [], by simp, rfl⟩

theorem le_size_of_isBoundary {t : Text} {n : Nat} (h : isBoundary t n = true) : n ≤ size t := by
  obtain ⟨a, b, rfl, rfl⟩ := isBoundary_iff.1 h
  simp

theorem isBoundary_floor (t : Text) (n : Nat) : isBoundary t (floor t n) = true := by
  induction t generalizing n with
  | nil => exact isBoundary_zero _
  | cons c t ih =>
    unfold floor
    split
    · obtain ⟨a, b, rfl, hs⟩ := isBoundary_iff.1 (ih (n - c.utf8Size))
      exact isBoundary_iff.2 ⟨c :: a, b, rfl, by simp [hs]⟩
    · exact isBoundary_zero _

theorem floor_le (t : Text) (n : Nat) : floor t n ≤ n := by
  induction t generalizing n with
  | nil => simp [floor]
  | cons c t ih =>
    unfold floor
    split
    · have := ih (n - c.utf8Size)
      omega
    · omega

/-- No boundary up to `n` is greater than `floor t n`. -/
theorem le_floor {t : Text} {m n : Nat} (h : isBoundary t m = true) (hm : m ≤ n) :
    m ≤ floor t n := by
  induction t generalizing m n with
  | nil =>
    have := le_size_of_isBoundary h
    simp only [size_nil] at this
    omega
  | cons c t ih =>
    obtain ⟨a, b, ht, rfl⟩ := isBoundary_iff.1 h
    cases a with
    | nil => simp
    | cons d a =>
      obtain ⟨rfl, rfl⟩ : c = d ∧ t = a ++ b := by simpa using ht
      simp only [size_cons] at hm ⊢
      have := ih (m := size a) (n := n - c.utf8Size) (isBoundary_iff.2 ⟨a, b, rfl, rfl⟩) (by omega)
      unfold floor
      split <;> omega

end Text

end TreeEdit
