import TreeEdit.Proofs.Engine.Basic
/-!
# Edits are applied whole or not at all

The answer to an edit hangs on four questions, in this order: is its span a range of the
text, are both ends of it boundaries, does it hold the replacement already, and is what it
holds what the edit expects. `Verdict` gives each of the five answers the condition under
which it is given.

Only an edit that gets past all four changes the buffer, and `Splices` says how. The text
behind point stays behind it if point was behind the span, and the text before point stays
before it if point was before the span. An insertion at point is both, and there the new text
goes in front of point (`insertion_at_point`). `apply_atomic` puts the two together.
-/

namespace TreeEdit

namespace Text

/-! ## The text on either side of an offset -/

theorem splitAt?_append_left {x : Text} {n : Nat} (hn : n ≤ x.size) (y : Text) :
    (x ++ y).splitAt? n = (x.splitAt? n).map fun p => (p.1, p.2 ++ y) := by
  cases h : x.splitAt? n with
  | some p =>
    obtain ⟨rfl, hs⟩ := splitAt?_eq_some_iff.1 h
    exact splitAt?_eq_some_iff.2 ⟨by simp, hs⟩
  | none =>
    -- A place within `x` where the longer text can be split is one where `x` can.
    cases hy : (x ++ y).splitAt? n with
    | none => rfl
    | some p =>
      have hb : (x ++ y).isBoundary n = true := by simp [isBoundary, hy]
      simpa [isBoundary, h] using isBoundary_of_le hb hn

theorem splitAt?_append_right (x y : Text) (n : Nat) :
    (x ++ y).splitAt? (x.size + n) = (y.splitAt? n).map fun p => (x ++ p.1, p.2) := by
  cases h : y.splitAt? n with
  | some p =>
    obtain ⟨rfl, rfl⟩ := splitAt?_eq_some_iff.1 h
    exact splitAt?_eq_some_iff.2 ⟨by simp, by simp⟩
  | none =>
    cases hx : (x ++ y).splitAt? (x.size + n) with
    | none => rfl
    | some p =>
      have hb : (x ++ y).isBoundary (x.size + n) = true := by simp [isBoundary, hx]
      simpa [isBoundary, h] using isBoundary_of_ge hb (Nat.le_add_right _ _)

/-- The text before an offset; `none` where the text cannot be split. -/
def before? (t : Text) (n : Nat) : Option Text := (t.splitAt? n).map Prod.fst

/-- The text behind an offset; `none` where the text cannot be split. -/
def behind? (t : Text) (n : Nat) : Option Text := (t.splitAt? n).map Prod.snd

theorem before?_append {x : Text} {n : Nat} (hn : n ≤ x.size) (y : Text) :
    (x ++ y).before? n = x.before? n := by
  simp [before?, splitAt?_append_left hn, Function.comp_def]

theorem behind?_append (x y : Text) (n : Nat) : (x ++ y).behind? (x.size + n) = y.behind? n := by
  simp [behind?, splitAt?_append_right, Function.comp_def]

end Text

/-! ## The place of an edit -/

namespace Edit

variable {e : Edit} {t : Text}

theorem slice?_of_site {x y z : Text} (h : e.site t = .ok (x, y, z)) :
    t.slice? e.span.start e.span.stop = some y :=
  Text.slice?_eq_some_iff.2 ⟨x, z, site_eq_ok_iff.1 h⟩

theorem slice?_of_no_site {err : EditError} (h : e.site t = .error err) :
    t.slice? e.span.start e.span.stop = none := by
  rw [Option.eq_none_iff_forall_ne_some]
  intro y hy
  obtain ⟨x, z, hp⟩ := Text.slice?_eq_some_iff.1 hy
  rw [site_eq_ok_iff.2 hp] at h
  simp at h

/-- The span is a range of the text. -/
def InRange (e : Edit) (t : Text) : Prop := e.span.start ≤ e.span.stop ∧ e.span.stop ≤ t.size

/-- The first end of the span that falls inside a character. -/
def offBoundary? (e : Edit) (t : Text) : Option Nat :=
  [e.span.start, e.span.stop].find? fun o => !t.isBoundary o

theorem site_of_not_inRange (h : ¬ e.InRange t) :
    e.site t = .error (.invalidRange e.span t.size) := by
  unfold InRange at h
  unfold site
  rw [if_pos (by omega)]

theorem site_of_offBoundary {o : Nat} (h : e.InRange t) (ho : e.offBoundary? t = some o) :
    e.site t = .error (.notBoundary o) := by
  obtain ⟨hle, hsize⟩ := h
  unfold site
  rw [if_neg (by omega)]
  cases hs : t.isBoundary e.span.start with
  | false =>
    obtain rfl : e.span.start = o := by simpa [offBoundary?, hs] using ho
    simp
  | true =>
    simp only [offBoundary?, hs, List.find?_cons, List.find?_nil, Bool.not_true] at ho
    cases hb : t.isBoundary e.span.stop with
    | true => simp [hb] at ho
    | false =>
      obtain rfl : e.span.stop = o := by simpa [hb] using ho
      -- A cut would make the stop a boundary.
      cases hc : t.cut? e.span.start e.span.stop with
      | none => simp
      | some parts =>
        obtain ⟨x, y, z⟩ := parts
        obtain ⟨ht, -, hn⟩ := Text.cut?_eq_some_iff.1 hc
        rw [Text.isBoundary_iff.2 ⟨x ++ y, z, ht, hn⟩] at hb
        simp at hb

theorem exists_site (h : e.InRange t) (ho : e.offBoundary? t = none) :
    ∃ x y z, e.site t = .ok (x, y, z) := by
  have hb : t.isBoundary e.span.start = true ∧ t.isBoundary e.span.stop = true := by
    simpa [offBoundary?] using ho
  obtain ⟨x, y, z, hp⟩ := Text.exists_parts hb.1 hb.2 h.1
  exact ⟨x, y, z, site_eq_ok_iff.2 hp⟩

end Edit

namespace Buffer

/-! ## The answer -/

/-- Each answer to an edit and the condition under which it is given. -/
structure Verdict (b : Buffer) (e : Edit) (answer : Except Failure EditResult) : Prop where
  invalidRange : answer = .error (.rejected (.invalidRange e.span b.text.size)) ↔
    e.span.stop < e.span.start ∨ b.text.size < e.span.stop
  notBoundary : ∀ o, answer = .error (.rejected (.notBoundary o)) ↔
    e.InRange b.text ∧ e.offBoundary? b.text = some o
  /-- What the edit expects does not matter here. -/
  alreadyApplied : answer = .ok .alreadyApplied ↔
    b.text.slice? e.span.start e.span.stop = some e.replacement
  mismatch : ∀ found, answer = .error (.rejected (.mismatch e.span e.expected found)) ↔
    b.text.slice? e.span.start e.span.stop = some found ∧ found ≠ e.replacement ∧
      e.expected.accepts found = false
  applied : answer = .ok (.applied e.span.start e.span.size e.replacement.size) ↔
    ∃ found, b.text.slice? e.span.start e.span.stop = some found ∧ found ≠ e.replacement ∧
      e.expected.accepts found = true
  /-- The text of the span is there exactly if the first two answers are not given. -/
  slice : (b.text.slice? e.span.start e.span.stop).isSome = true ↔
    e.InRange b.text ∧ e.offBoundary? b.text = none

/-- The answer is one of the five, and the condition of each excludes the others. -/
theorem verdict_apply (b : Buffer) (e : Edit) : Verdict b e ((apply e).perform b).1 := by
  have hrange : (e.span.stop < e.span.start ∨ b.text.size < e.span.stop) ↔ ¬ e.InRange b.text := by
    unfold Edit.InRange
    omega
  by_cases hr : e.InRange b.text
  · cases ho : e.offBoundary? b.text with
    | some o =>
      have hs := Edit.site_of_offBoundary hr ho
      have hn := Edit.slice?_of_no_site hs
      rw [apply_of_no_site hs]
      constructor <;> simp [hn, ho, hr, hrange]
    | none =>
      obtain ⟨x, y, z, hs⟩ := Edit.exists_site hr ho
      have hy := Edit.slice?_of_site hs
      by_cases hd : y = e.replacement
      · subst hd
        rw [apply_of_done hs]
        constructor <;> simp [hy, ho, hr, hrange]
      · cases hv : e.expected.accepts y with
        | false =>
          rw [apply_of_mismatch hs hd hv]
          constructor <;> simp [hy, ho, hr, hrange, hd, hv]
        | true =>
          rw [apply_of_match hs hd hv]
          constructor <;> simp [hy, ho, hr, hrange, hd, hv]
  · have hs := Edit.site_of_not_inRange hr
    have hn := Edit.slice?_of_no_site hs
    rw [apply_of_no_site hs]
    constructor <;> simp [hn, hr, hrange]

/-! ## The change -/

/-- What an edit that is applied does to a buffer. -/
structure Splices (e : Edit) (b b' : Buffer) : Prop where
  text : ∃ x y z, b.text = x ++ y ++ z ∧ x.size = e.span.start ∧ (x ++ y).size = e.span.stop ∧
    b'.text = x ++ e.replacement ++ z
  revision : b'.revision = b.revision + 1
  language : b'.language = b.language
  point : b'.point =
    if e.span.stop ≤ b.point then b.point + e.replacement.size - (e.span.stop - e.span.start)
    else if e.span.start < b.point then e.span.start
    else b.point
  /-- Behind a point at or past the stop stands what stood behind it. -/
  behind : e.span.stop ≤ b.point → b'.text.behind? b'.point = b.text.behind? b.point
  /-- Before a point at or before the start stands what stood before it, unless the edit is an
  insertion at point. -/
  before : b.point ≤ e.span.start → e.span ≠ ⟨b.point, b.point⟩ →
    b'.text.before? b'.point = b.text.before? b.point
  /-- What is inserted at point goes in front of it. -/
  inserted : e.span = ⟨b.point, b.point⟩ →
    b'.text.before? b'.point = (b.text.before? b.point).map (· ++ e.replacement)

variable {b : Buffer} {e : Edit} {x y z : Text}

/-- Behind the span, point keeps its distance to the end of the text. -/
theorem behind?_follow (hs : x.size = e.span.start) (ht : (x ++ y).size = e.span.stop) {p : Nat}
    (hp : e.span.stop ≤ p) :
    (x ++ e.replacement ++ z).behind? (e.follow p) = (x ++ y ++ z).behind? p := by
  obtain ⟨n, rfl⟩ := Nat.exists_eq_add_of_le hp
  have hf : e.follow (e.span.stop + n) = (x ++ e.replacement).size + n := by
    rw [Edit.follow_of_stop_le hp, Span.size]
    simp only [Text.size_append] at ht ⊢
    omega
  rw [hf, ← ht, Text.behind?_append, Text.behind?_append]

/-- Before the span, point stays where it is. -/
theorem before?_follow (hs : x.size = e.span.start) (ht : (x ++ y).size = e.span.stop) {p : Nat}
    (hp : p ≤ e.span.start) (hne : e.span ≠ ⟨p, p⟩) :
    (x ++ e.replacement ++ z).before? (e.follow p) = (x ++ y ++ z).before? p := by
  have hstop : p < e.span.stop := by
    rw [Text.size_append, hs] at ht
    refine Nat.lt_of_le_of_ne (by omega) fun h => hne ?_
    have hstart : e.span.start = p := by omega
    exact congrArg₂ Span.mk hstart h.symm
  rw [Edit.follow_of_before hp hstop, List.append_assoc, List.append_assoc,
    Text.before?_append (hs ▸ hp), Text.before?_append (hs ▸ hp)]

/-- Point moves behind what is inserted at it. -/
theorem before?_follow_insertion (hs : x.size = e.span.start) (ht : (x ++ y).size = e.span.stop)
    {p : Nat} (hp : e.span = ⟨p, p⟩) :
    (x ++ e.replacement ++ z).before? (e.follow p)
      = ((x ++ y ++ z).before? p).map (· ++ e.replacement) := by
  simp only [hp] at hs ht
  have hy : y = [] := by
    rw [Text.size_append] at ht
    exact Text.size_eq_zero_iff.1 (by omega)
  have hf : e.follow p = (x ++ e.replacement).size := by
    rw [Edit.follow_of_stop_le (by simp [hp]), Text.size_append, hs, hp]
    simp [Span.size]
  rw [hf, ← hs, hy, List.append_nil, Text.before?, Text.before?, Text.splitAt?_size_append,
    Text.splitAt?_size_append]
  rfl

theorem splices_of_site (h : e.site b.text = .ok (x, y, z)) :
    Splices e b { b with text := x ++ e.replacement ++ z, point := e.follow b.point,
                         revision := b.revision + 1 } := by
  obtain ⟨ht, hs, hy⟩ := Edit.site_eq_ok_iff.1 h
  refine ⟨⟨x, y, z, ht, hs, hy, rfl⟩, rfl, rfl, ?_, fun hp => ?_, fun hp hne => ?_, fun hp => ?_⟩
  · have hle : e.span.start ≤ e.span.stop := by
      simp only [Text.size_append] at hy
      omega
    dsimp only [Edit.follow, Span.size]
    split
    · omega
    · rfl
  · rw [ht]
    exact behind?_follow hs hy hp
  · rw [ht]
    exact before?_follow hs hy hp hne
  · rw [ht]
    exact before?_follow_insertion hs hy hp

/-- An edit is applied, or it changes nothing. -/
theorem apply_splices (b : Buffer) (e : Edit) :
    (((apply e).perform b).1 = .ok (.applied e.span.start e.span.size e.replacement.size) ∧
      Splices e b ((apply e).perform b).2) ∨
    ((∀ s r i, ((apply e).perform b).1 ≠ .ok (.applied s r i)) ∧ ((apply e).perform b).2 = b) := by
  cases hs : e.site b.text with
  | error err =>
    rw [apply_of_no_site hs]
    exact .inr ⟨by simp, rfl⟩
  | ok parts =>
    obtain ⟨x, y, z⟩ := parts
    by_cases hd : y = e.replacement
    · subst hd
      rw [apply_of_done hs]
      exact .inr ⟨by simp, rfl⟩
    · cases hv : e.expected.accepts y with
      | false =>
        rw [apply_of_mismatch hs hd hv]
        exact .inr ⟨by simp, rfl⟩
      | true =>
        rw [apply_of_match hs hd hv]
        exact .inl ⟨rfl, splices_of_site hs⟩

/-- The edit is applied: the answer says so, and `b'` is what it leaves behind. -/
def Takes (b : Buffer) (e : Edit) (b' : Buffer) : Prop :=
  (apply e).perform b = (.ok (.applied e.span.start e.span.size e.replacement.size), b')

/-- An edit is applied exactly if its span holds a text that it expects and that is not the
replacement. That text is replaced, point follows, and the revision is counted up. -/
theorem takes_iff {b' : Buffer} : b.Takes e b' ↔ ∃ x y z, b.text = x ++ y ++ z ∧
    e.span = ⟨x.size, (x ++ y).size⟩ ∧ y ≠ e.replacement ∧ e.expected.accepts y = true ∧
    b' = { b with text := x ++ e.replacement ++ z, point := e.follow b.point,
                  revision := b.revision + 1 } := by
  constructor
  · intro h
    obtain ⟨y, hy, hne, hv⟩ := (verdict_apply b e).applied.1 (congrArg Prod.fst h)
    obtain ⟨x, z, ht, hx, hxy⟩ := Text.slice?_eq_some_iff.1 hy
    have hm := apply_of_match (Edit.site_eq_ok_iff.2 ⟨ht, hx, hxy⟩) hne hv
    exact ⟨x, y, z, ht, by rw [hx, hxy], hne, hv, (Prod.mk.inj (h.symm.trans hm)).2⟩
  · rintro ⟨x, y, z, ht, hs, hne, hv, rfl⟩
    exact apply_of_match (Edit.site_eq_ok_iff.2 ⟨ht, by rw [hs], by rw [hs]⟩) hne hv

end Buffer

namespace Engine

end Engine

namespace Buffer

end Buffer

end TreeEdit
