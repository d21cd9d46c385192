import Mathlib.Data.List.Forall2
import Mathlib.Order.Bounds.Basic
import TreeEdit.Proofs.Text.Crlf
/-!
# Re-basing keeps the shape of a text

To re-base a text the lines behind the first one lose a number of spaces and tabs at their
start and get an indentation instead. That number is the greatest that every line which is
not blank can lose (`commonIndent_eq`), so nothing but indentation is ever taken off, and the
lines stand to each other as they did before.

`rebase_exact` says this line by line, and that the last one of two indentations wins: what
the first one added is just what all the lines have in common then (`commonIndent_rebased`).
-/

namespace TreeEdit.Text

variable {t x y indent l : Text} {ls : List Text} {base n : Nat}

/-! ## Indentation of a line -/

/-- Spaces and tabs are one byte long. -/
theorem size_eq_length (h : ∀ c ∈ x, isIndent c = true) : x.size = x.length := by
  induction x with
  | nil => rfl
  | cons c x ih =>
    obtain ⟨hc, hx⟩ := List.forall_mem_cons.1 h
    have h1 : c.utf8Size = 1 := by
      simp only [isIndent, Bool.or_eq_true, beq_iff_eq] at hc
      rcases hc with rfl | rfl <;> rfl
    rw [size_cons, ih hx, h1, List.length_cons, Nat.add_comm]

theorem size_indentation (t : Text) : t.indentation.size = t.indentation.length :=
  size_eq_length t.isIndent_of_mem_indentation

/-- What comes off a line that is long enough in indentation is indentation. -/
theorem isIndent_of_mem_take (h : base ≤ l.indentation.length) :
    ∀ c ∈ l.take base, isIndent c = true := by
  have ht : l.take base = l.indentation.take base := by
    conv => lhs; rw [← l.indentation_append_dropWhile]
    rw [List.take_append_of_le_length h]
  rw [ht]
  exact fun c hc => l.isIndent_of_mem_indentation c (List.mem_of_mem_take hc)

/-- A line is longer than its indentation, so it can be cut there. -/
theorem length_take_of_le (h : base ≤ l.indentation.length) : (l.take base).length = base := by
  have hl : l.indentation.length ≤ l.length := (List.takeWhile_prefix isIndent).length_le
  rw [List.length_take]
  omega

/-- The cut is at a boundary. -/
theorem splitAt?_of_le (h : base ≤ l.indentation.length) :
    l.splitAt? base = some (l.take base, l.drop base) := by
  refine splitAt?_eq_some_iff.2 ⟨(List.take_append_drop base l).symm, ?_⟩
  rw [size_eq_length (isIndent_of_mem_take h), length_take_of_le h]

theorem length_indentation_drop (h : base ≤ l.indentation.length) :
    (indentation (l.drop base)).length + base = l.indentation.length := by
  conv => rhs; rw [← List.take_append_drop base l]
  rw [indentation_append (isIndent_of_mem_take h), List.length_append, length_take_of_le h,
    Nat.add_comm]

theorem allBlank_append_of_isIndent (h : ∀ c ∈ x, isIndent c = true) (y : Text) :
    (x ++ y).allBlank = y.allBlank := by
  have hx : x.all isBlank = true := List.all_eq_true.2 fun c hc => isBlank_of_isIndent (h c hc)
  rw [allBlank, List.all_append, hx, Bool.true_and, allBlank]

theorem allBlank_drop (h : base ≤ l.indentation.length) : allBlank (l.drop base) = l.allBlank := by
  conv => rhs; rw [← List.take_append_drop base l]
  rw [allBlank_append_of_isIndent (isIndent_of_mem_take h)]

/-! ## One line -/

theorem rebaseLine_of_blank (h : l.allBlank = true) (indent : Text) (base : Nat) :
    rebaseLine indent base l = [] := if_pos h

theorem rebaseLine_of_not_blank (h : l.allBlank = false) (indent : Text) (base : Nat) :
    rebaseLine indent base l = indent ++ l.drop base := if_neg (by simp [h])

/-- What a line that is not blank starts with is `indent` and what it had more than `base`. -/
theorem length_indentation_rebaseLine (hi : ∀ c ∈ indent, isIndent c = true)
    (hb : l.allBlank = false) (h : base ≤ l.indentation.length) :
    (rebaseLine indent base l).indentation.length + base
      = indent.length + l.indentation.length := by
  rw [rebaseLine_of_not_blank hb, indentation_append hi, List.length_append, Nat.add_assoc,
    length_indentation_drop h]

theorem allBlank_rebaseLine (hi : ∀ c ∈ indent, isIndent c = true)
    (h : l.allBlank = false → base ≤ l.indentation.length) :
    (rebaseLine indent base l).allBlank = l.allBlank := by
  cases hb : l.allBlank with
  | true =>
    rw [rebaseLine_of_blank hb]
    rfl
  | false =>
    rw [rebaseLine_of_not_blank hb, allBlank_append_of_isIndent hi, allBlank_drop (h hb), hb]

/-- An indentation that was put on comes off again whole. -/
theorem rebaseLine_rebaseLine (hi : ∀ c ∈ indent, isIndent c = true) (hb : l.allBlank = false)
    (h : base ≤ l.indentation.length) (indent' : Text) :
    rebaseLine indent' indent.length (rebaseLine indent base l) = rebaseLine indent' base l := by
  have hr : (rebaseLine indent base l).allBlank = false := by
    rw [allBlank_rebaseLine hi fun _ => h, hb]
  rw [rebaseLine_of_not_blank hr, rebaseLine_of_not_blank hb, rebaseLine_of_not_blank hb,
    List.drop_left]

/-! ## The common indentation -/

/-- Some line has no more indentation than is common to all. -/
theorem exists_commonIndent (h : ∃ l ∈ ls, l.allBlank = false) :
    ∃ l ∈ ls, l.allBlank = false ∧ l.indentation.length = commonIndent ls := by
  obtain ⟨l, hl, hb⟩ := h
  have hm : l.indentation.length
      ∈ (ls.filter fun l => !l.allBlank).map fun l => l.indentation.length :=
    List.mem_map.2 ⟨l, List.mem_filter.2 ⟨hl, by simp [hb]⟩, rfl⟩
  cases hmin : ((ls.filter fun l => !l.allBlank).map fun l => l.indentation.length).min? with
  | none =>
    rw [List.min?_eq_none_iff.1 hmin] at hm
    simp at hm
  | some n =>
    obtain ⟨k, hk, rfl⟩ := List.mem_map.1 (List.min?_mem hmin)
    obtain ⟨hk, hkb⟩ := List.mem_filter.1 hk
    refine ⟨k, hk, by simpa using hkb, ?_⟩
    rw [commonIndent, hmin, Option.getD_some]

/-- The common indentation is the one that lies below all others and is reached. -/
theorem commonIndent_eq (hle : ∀ l ∈ ls, l.allBlank = false → n ≤ l.indentation.length)
    (h : ∃ l ∈ ls, l.allBlank = false ∧ l.indentation.length = n) : commonIndent ls = n := by
  obtain ⟨l, hl, hb, rfl⟩ := h
  obtain ⟨k, hk, hkb, hkc⟩ := exists_commonIndent ⟨l, hl, hb⟩
  exact Nat.le_antisymm (commonIndent_le hl hb) (hkc ▸ hle k hk hkb)

/-- Re-based lines have the new indentation in common, if any of them is not blank. -/
theorem commonIndent_rebased (hi : ∀ c ∈ indent, isIndent c = true)
    (h : ∃ l ∈ ls, l.allBlank = false) :
    (∃ l ∈ ls.map (rebaseLine indent (commonIndent ls)), l.allBlank = false) ∧
      commonIndent (ls.map (rebaseLine indent (commonIndent ls))) = indent.length := by
  obtain ⟨l, hl, hb, hc⟩ := exists_commonIndent h
  have hlen := length_indentation_rebaseLine hi hb (commonIndent_le hl hb)
  have hm := List.mem_map_of_mem (f := rebaseLine indent (commonIndent ls)) hl
  have hb' : (rebaseLine indent (commonIndent ls) l).allBlank = false := by
    rw [allBlank_rebaseLine hi (commonIndent_le hl), hb]
  refine ⟨⟨_, hm, hb'⟩, commonIndent_eq (List.forall_mem_map.2 fun k hk hkb => ?_)
    ⟨_, hm, hb', by omega⟩⟩
  rw [allBlank_rebaseLine hi (commonIndent_le hk)] at hkb
  have hle := commonIndent_le hk hkb
  have hklen := length_indentation_rebaseLine hi hkb hle
  omega

/-! ## The whole text -/

/-- The second line is the first one re-based: if that is blank, nothing is left of it, and else
`indent` stands for its first `base` bytes, which are spaces and tabs. -/
inductive Rebased (indent : Text) (base : Nat) : Text → Text → Prop
  | blank {old : Text} : old.allBlank = true → Rebased indent base old []
  | moved {old gone kept : Text} : old.allBlank = false → old.splitAt? base = some (gone, kept) →
      (∀ c ∈ gone, isIndent c = true) → Rebased indent base old (indent ++ kept)

theorem rebased_rebaseLine (h : l.allBlank = false → base ≤ l.indentation.length) (indent : Text) :
    Rebased indent base l (rebaseLine indent base l) := by
  cases hb : l.allBlank with
  | true =>
    rw [rebaseLine_of_blank hb]
    exact .blank hb
  | false =>
    rw [rebaseLine_of_not_blank hb]
    exact .moved hb (splitAt?_of_le (h hb)) (isIndent_of_mem_take (h hb))

/-- The new lines are the old lines re-based. The `base` bytes that each line loses are as many as
all lines that are not blank can lose. Two such lines differ in indentation by as much as before,
and the least indentation of such a line is `indent`. -/
structure RebasedLines (indent : Text) (base : Nat) (old new : List Text) : Prop where
  lines : List.Forall₂ (Rebased indent base) old new
  greatest : (∃ l ∈ old, l.allBlank = false) →
    IsGreatest {n | ∀ l ∈ old, l.allBlank = false → n ≤ l.indentation.size} base
  relative : ∀ p ∈ old.zip new, ∀ q ∈ old.zip new, p.1.allBlank = false → q.1.allBlank = false →
    (p.2.indentation.size : Int) - q.2.indentation.size
      = p.1.indentation.size - q.1.indentation.size
  least : (∃ l ∈ old, l.allBlank = false) →
    IsLeast {n | ∃ l ∈ new, l.allBlank = false ∧ l.indentation.size = n} indent.size

theorem rebasedLines_map (hi : ∀ c ∈ indent, isIndent c = true) (ls : List Text) :
    RebasedLines indent (commonIndent ls) ls (ls.map (rebaseLine indent (commonIndent ls))) where
  lines := by
    rw [List.forall₂_map_right_iff, List.forall₂_same]
    exact fun l hl => rebased_rebaseLine (commonIndent_le hl) indent
  greatest h := by
    obtain ⟨l, hl, hb, hc⟩ := exists_commonIndent h
    constructor
    · intro k hk hkb
      rw [size_indentation]
      exact commonIndent_le hk hkb
    · intro n hn
      have hln := hn l hl hb
      rwa [size_indentation, hc] at hln
  relative := by
    have key : ∀ p ∈ ls.zip (ls.map (rebaseLine indent (commonIndent ls))),
        p.1.allBlank = false →
        p.2.indentation.length + commonIndent ls = indent.length + p.1.indentation.length := by
      intro p hp hb
      rw [← List.map_prod_left_eq_zip] at hp
      obtain ⟨l, hl, rfl⟩ := List.mem_map.1 hp
      exact length_indentation_rebaseLine hi hb (commonIndent_le hl hb)
    intro p hp q hq hpb hqb
    have hp' := key p hp hpb
    have hq' := key q hq hqb
    simp only [size_indentation]
    omega
  least h := by
    obtain ⟨hnew, hcommon⟩ := commonIndent_rebased hi h
    obtain ⟨l, hl, hb, hc⟩ := exists_commonIndent hnew
    constructor
    · exact ⟨l, hl, hb, by rw [size_indentation, hc, hcommon, size_eq_length hi]⟩
    · rintro n ⟨k, hk, hkb, rfl⟩
      rw [size_indentation, size_eq_length hi, ← hcommon]
      exact commonIndent_le hk hkb

theorem rebase_of_pieces {first : Text} {rest : List Text} (h : t.pieces = first :: rest)
    (indent : Text) : t.rebase indent
      = join ['\n'] (first :: rest.map (rebaseLine indent (commonIndent rest))) := by
  rw [rebase, h]

theorem pieces_rebase {first : Text} {rest : List Text} (h : t.pieces = first :: rest)
    (hi : '\n' ∉ indent) :
    (t.rebase indent).pieces = first :: rest.map (rebaseLine indent (commonIndent rest)) := by
  have hp : ∀ l ∈ first :: rest, '\n' ∉ l := fun l hl => newline_not_mem_of_mem_pieces (h ▸ hl)
  obtain ⟨hf, hr⟩ := List.forall_mem_cons.1 hp
  rw [rebase_of_pieces h]
  refine pieces_join (by simp) (List.forall_mem_cons.2 ⟨hf, List.forall_mem_map.2 fun l hl => ?_⟩)
  exact newline_not_mem_rebaseLine hi (hr l hl) _

/-- Of two indentations the last one wins. -/
theorem rebase_rebase (hi : ∀ c ∈ indent, isIndent c = true) (t indent' : Text) :
    (t.rebase indent).rebase indent' = t.rebase indent' := by
  have hn : '\n' ∉ indent := fun hm => absurd (hi _ hm) (by decide)
  obtain ⟨first, rest, h⟩ := List.exists_cons_of_ne_nil t.pieces_ne_nil
  rw [rebase_of_pieces (pieces_rebase h hn), rebase_of_pieces h, List.map_map]
  refine congrArg (fun ls => join ['\n'] (first :: ls)) (List.map_congr_left fun l hl => ?_)
  rw [Function.comp_apply]
  cases hb : l.allBlank with
  | true =>
    rw [rebaseLine_of_blank hb, rebaseLine_of_blank hb]
    exact rebaseLine_of_blank rfl _ _
  | false =>
    rw [(commonIndent_rebased hi ⟨l, hl, hb⟩).2]
    exact rebaseLine_rebaseLine hi hb (commonIndent_le hl hb) indent'

/-- Re-basing a text onto spaces and tabs leaves the first line alone and re-bases all others by one
and the same number of bytes; and to re-base the result is to re-base the text. -/
theorem rebase_exact (t : Text) (hi : ∀ c ∈ indent, isIndent c = true) :
    (∃ first rest lines base, t.pieces = first :: rest ∧
      (t.rebase indent).pieces = first :: lines ∧ RebasedLines indent base rest lines) ∧
    ∀ indent', (t.rebase indent).rebase indent' = t.rebase indent' := by
  have hn : '\n' ∉ indent := fun hm => absurd (hi _ hm) (by decide)
  obtain ⟨first, rest, h⟩ := List.exists_cons_of_ne_nil t.pieces_ne_nil
  exact ⟨⟨first, rest, _, _, h, pieces_rebase h hn, rebasedLines_map hi rest⟩, rebase_rebase hi t⟩

/-- A line with a space and a tab in front, one that is a no-break space, and one with a space more
than the first. -/
def stepped : Text :=
  ['f', ':', '\n', ' ', '\t', 'a', '\n', '\u00a0', '\n', ' ', '\t', ' ', 'é']

/-- The space and the tab make room for a tab, and the last line keeps its space. -/
theorem rebase_exact_stepped :
    (∀ c ∈ ['\t'], isIndent c = true) ∧
    stepped.rebase ['\t'] = ['f', ':', '\n', '\t', 'a', '\n', '\n', '\t', ' ', 'é'] ∧
    (∃ base, RebasedLines ['\t'] base [[' ', '\t', 'a'], ['\u00a0'], [' ', '\t', ' ', 'é']]
      [['\t', 'a'], [], ['\t', ' ', 'é']]) ∧
    (stepped.rebase ['\t']).rebase ['\n', '>'] = stepped.rebase ['\n', '>'] := by
  have hi : ∀ c ∈ ['\t'], isIndent c = true := List.forall_mem_singleton.2 rfl
  obtain ⟨⟨first, rest, lines, base, ho, hn, hb⟩, hr⟩ := rebase_exact stepped hi
  have ho' : stepped.pieces
      = ['f', ':'] :: [[' ', '\t', 'a'], ['\u00a0'], [' ', '\t', ' ', 'é']] := by decide
  have hn' : (stepped.rebase ['\t']).pieces
      = ['f', ':'] :: [['\t', 'a'], [], ['\t', ' ', 'é']] := by decide
  obtain ⟨-, rfl⟩ := List.cons.inj (ho'.symm.trans ho)
  obtain ⟨-, rfl⟩ := List.cons.inj (hn'.symm.trans hn)
  exact ⟨hi, by decide, ⟨base, hb⟩, hr ['\n', '>']⟩

end TreeEdit.Text
