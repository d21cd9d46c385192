import TreeEdit.Proofs.Text
import TreeEdit.Text.Snippet
/-!
# Texts whose lines end in a carriage return

In such a text (`AllCrlf`) a carriage return stands right in front of every newline. To put
two of them together keeps this, and so does to take one apart, unless the cut is between a
carriage return and its newline (`allCrlf_append`).

In terms of lines: every piece between newlines but the last ends in a carriage return
(`allCrlf_iff_pieces`). Re-basing keeps the end of a line that is not blank, but a blank line
becomes empty and loses its carriage return with the rest. `allCrlf_rebase_iff` says that
this is all that can go wrong.
-/

namespace TreeEdit.Text

variable {t x y sep indent : Text} {n : Nat}

/-- A carriage return stands right in front of every newline. -/
def AllCrlf (t : Text) : Prop := ∀ x y, t = x ++ '\n' :: y → x.getLast? = some '\r'

/-! ## Parts -/

theorem allCrlf_of_not_mem (h : '\n' ∉ t) : t.AllCrlf := by
  rintro x y rfl
  simp at h

theorem AllCrlf.left (h : AllCrlf (x ++ y)) : x.AllCrlf := by
  rintro u v rfl
  exact h u (v ++ y) (by simp)

theorem AllCrlf.head_ne (h : t.AllCrlf) : t.head? ≠ some '\n' := by
  intro hh
  obtain ⟨y, rfl⟩ := List.head?_eq_some_iff.1 hh
  simpa using h [] y rfl

/-- Two texts put together have all their newlines behind carriage returns exactly if each has,
unless the cut is between a carriage return and its newline. -/
theorem allCrlf_append (h : x.getLast? ≠ some '\r' ∨ y.head? ≠ some '\n') :
    AllCrlf (x ++ y) ↔ x.AllCrlf ∧ y.AllCrlf := by
  constructor
  · refine fun ha => ⟨ha.left, fun u v hy => ?_⟩
    have hu := ha (x ++ u) v (by simp [hy])
    rw [List.getLast?_append] at hu
    cases hl : u.getLast? with
    | some c => simpa [hl] using hu
    | none =>
      -- The newline is the first character of `y`, so the carriage return would be in `x`.
      obtain rfl := List.getLast?_eq_none_iff.1 hl
      rcases h with hx | hy'
      · exact (hx (by simpa using hu)).elim
      · exact (hy' (by simp [hy])).elim
  · rintro ⟨hx, hy⟩ u v huv
    rcases List.append_eq_append_iff.1 huv with ⟨k, rfl, hk⟩ | ⟨k, rfl, hk⟩
    · have hl := hy k v hk
      simp [List.getLast?_append, hl]
    · rcases List.cons_eq_append_iff.1 hk with ⟨rfl, rfl⟩ | ⟨k, rfl, -⟩
      · exact (hy.head_ne rfl).elim
      · exact hx u k rfl

theorem allCrlf_newline :
    AllCrlf (x ++ '\n' :: y) ↔ x.AllCrlf ∧ x.getLast? = some '\r' ∧ y.AllCrlf := by
  have ha : AllCrlf (x ++ ['\n'] ++ y) ↔ AllCrlf (x ++ ['\n']) ∧ y.AllCrlf :=
    allCrlf_append (.inl (by simp))
  rw [← List.singleton_append, ← List.append_assoc, ha, ← and_assoc]
  refine and_congr_left' ⟨fun h => ⟨h.left, h x [] rfl⟩, fun h u v huv => ?_⟩
  rcases List.eq_nil_or_concat v with rfl | ⟨v, c, rfl⟩
  · obtain ⟨rfl, -⟩ := List.append_inj' huv rfl
    exact h.2
  · rw [List.concat_eq_append, ← List.cons_append, ← List.append_assoc] at huv
    exact h.1 u v (List.append_inj' huv rfl).1

theorem getLast?_indentation (t : Text) : t.indentation.getLast? ≠ some '\r' := by
  intro hl
  have hm := List.all_eq_true.1 (List.all_takeWhile (l := t)) _ (List.mem_of_getLast? hl)
  revert hm
  decide

/-- The indentation at the start makes no difference. -/
theorem allCrlf_dropWhile_isIndent : AllCrlf (t.dropWhile isIndent) ↔ t.AllCrlf := by
  conv => rhs; rw [← t.indentation_append_dropWhile]
  rw [allCrlf_append (.inl t.getLast?_indentation),
    and_iff_right (allCrlf_of_not_mem t.newline_not_mem_indentation)]

/-! ## Copies -/

/-- What stands on the two sides of the text cannot get into each other's way. -/
structure Separates (sep : Text) : Prop where
  allCrlf : sep.AllCrlf
  ne_nil : sep ≠ []
  last : sep.getLast? ≠ some '\r'

theorem Separates.allCrlf_iff (h : sep.Separates) :
    AllCrlf (x ++ sep ++ y) ↔ x.AllCrlf ∧ y.AllCrlf := by
  have hl : (x ++ sep).getLast? ≠ some '\r' := by
    rw [List.getLast?_append, List.getLast?_eq_some_getLast h.ne_nil, Option.some_or,
      ← List.getLast?_eq_some_getLast h.ne_nil]
    exact h.last
  rw [allCrlf_append (.inl hl), allCrlf_append (.inr h.allCrlf.head_ne), and_iff_left h.allCrlf]

theorem separates_space : Separates [' '] :=
  ⟨allCrlf_of_not_mem (by decide), by simp, by decide⟩

/-- A line break with an indentation behind it separates. -/
theorem separates_break (t : Text) : Separates (['\r', '\n'] ++ t.indentation) := by
  refine ⟨?_, by simp, ?_⟩
  · refine (allCrlf_newline (x := ['\r'])).2 ⟨allCrlf_of_not_mem (by decide), rfl, ?_⟩
    exact allCrlf_of_not_mem t.newline_not_mem_indentation
  · rw [List.getLast?_append]
    cases hl : t.indentation.getLast? with
    | none => decide
    | some c =>
      rw [Option.some_or, ← hl]
      exact t.getLast?_indentation

/-- Copies are like the one text, as long as there are any. -/
theorem Separates.allCrlf_copies (h : sep.Separates) (hn : 0 < n) :
    (t.copies sep n).AllCrlf ↔ t.AllCrlf := by
  unfold copies
  induction n with
  | zero => exact absurd hn (Nat.lt_irrefl 0)
  | succ n ih =>
    cases n with
    | zero => rfl
    | succ n =>
      rw [List.replicate_succ, List.replicate_succ, join, ← List.replicate_succ, h.allCrlf_iff,
        ih (Nat.succ_pos n), and_self]
      simp

/-! ## Lines -/

/-- Lines put together have all newlines behind carriage returns exactly if every line but the last
ends in one. -/
theorem allCrlf_join {ls : List Text} (h : ∀ l ∈ ls, '\n' ∉ l) :
    (join ['\n'] ls).AllCrlf ↔ ∀ l ∈ ls.dropLast, l.getLast? = some '\r' := by
  induction ls with
  | nil => simp [join, allCrlf_of_not_mem]
  | cons l ls ih =>
    have hl := allCrlf_of_not_mem (h l (by simp))
    cases ls with
    | nil => simp [join, hl]
    | cons l' ls =>
      have ih := ih fun k hk => h k (List.mem_cons_of_mem _ hk)
      have hj : join ['\n'] (l :: l' :: ls) = l ++ '\n' :: join ['\n'] (l' :: ls) := by simp [join]
      rw [hj, allCrlf_newline, and_iff_right hl, ih, List.dropLast_cons_cons, List.forall_mem_cons]

theorem allCrlf_iff_pieces : t.AllCrlf ↔ ∀ l ∈ t.pieces.dropLast, l.getLast? = some '\r' := by
  conv => lhs; rw [← join_pieces t]
  exact allCrlf_join fun _ => newline_not_mem_of_mem_pieces

instance : DecidablePred AllCrlf := fun _ => decidable_of_iff _ allCrlf_iff_pieces.symm

/-- The common indentation is at most that of any line that is not blank. -/
theorem commonIndent_le {ls : List Text} {l : Text} (hl : l ∈ ls) (hb : l.allBlank = false) :
    commonIndent ls ≤ l.indentation.length := by
  have hm : l.indentation.length
      ∈ (ls.filter fun l => !l.allBlank).map fun l => l.indentation.length :=
    List.mem_map.2 ⟨l, List.mem_filter.2 ⟨hl, by simp [hb]⟩, rfl⟩
  exact List.min?_getD_le_of_mem hm

theorem length_indentation_lt {l : Text} (hl : l.getLast? = some '\r') :
    l.indentation.length < l.length := by
  have hd : l.dropWhile isIndent ≠ [] := by
    intro hd
    have hi := l.indentation_append_dropWhile
    rw [hd, List.append_nil] at hi
    exact l.getLast?_indentation (by rw [hi, hl])
  have hlen := congrArg List.length l.indentation_append_dropWhile
  have hpos := List.length_pos_iff.2 hd
  rw [List.length_append] at hlen
  omega

theorem newline_not_mem_rebaseLine {l : Text} (hi : '\n' ∉ indent) (hl : '\n' ∉ l) (base : Nat) :
    '\n' ∉ rebaseLine indent base l := by
  unfold rebaseLine
  split
  · simp
  · simp only [List.mem_append, not_or]
    exact ⟨hi, fun hm => hl (List.mem_of_mem_drop hm)⟩

/-- A line keeps the carriage return at its end exactly if it is not blank. -/
theorem getLast?_rebaseLine_iff {l : Text} {base : Nat} (hl : l.getLast? = some '\r')
    (hb : l.allBlank = false → base ≤ l.indentation.length) :
    (rebaseLine indent base l).getLast? = some '\r' ↔ l.allBlank = false := by
  unfold rebaseLine
  split
  · rename_i hbl
    simp [hbl]
  · rename_i hbl
    rw [Bool.not_eq_true] at hbl
    have hlt := Nat.lt_of_le_of_lt (hb hbl) (length_indentation_lt hl)
    refine iff_of_true ?_ hbl
    rw [List.getLast?_append, List.getLast?_drop, if_neg (Nat.not_le_of_lt hlt), hl]
    rfl

/-- A re-based text has all newlines behind carriage returns exactly if no line in its middle was
blank. -/
theorem allCrlf_rebase_iff (ht : t.AllCrlf) (hi : '\n' ∉ indent) :
    (t.rebase indent).AllCrlf ↔ ∀ l ∈ t.pieces.tail.dropLast, l.allBlank = false := by
  have hpieces : ∀ l ∈ t.pieces, '\n' ∉ l := fun _ => newline_not_mem_of_mem_pieces
  rw [allCrlf_iff_pieces] at ht
  unfold rebase
  cases hp : t.pieces with
  | nil => exact absurd hp (splitWhere_ne_nil _ t)
  | cons first rest =>
    rw [hp] at ht hpieces
    dsimp only [List.tail_cons]
    rw [allCrlf_join]
    · cases rest with
      | nil => simp
      | cons l ls =>
        rw [List.dropLast_cons_cons, List.forall_mem_cons] at ht
        rw [List.map_cons, List.dropLast_cons_cons, List.forall_mem_cons, and_iff_right ht.1,
          ← List.map_cons, ← List.map_dropLast, List.forall_mem_map]
        refine forall₂_congr fun k hk => ?_
        exact getLast?_rebaseLine_iff (ht.2 k hk) (commonIndent_le (List.dropLast_subset _ hk))
    · rw [List.forall_mem_cons] at hpieces ⊢
      refine ⟨hpieces.1, List.forall_mem_map.2 fun l hl => ?_⟩
      exact newline_not_mem_rebaseLine hi (hpieces.2 l hl) _

end TreeEdit.Text
