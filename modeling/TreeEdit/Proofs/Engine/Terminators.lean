import TreeEdit.Proofs.Engine.Pasted
import TreeEdit.Proofs.Text.Crlf
/-!
# Line endings after a paste

A text that has a carriage return in front of every newline should keep that when more of the
kind is pasted into it, and the line break that a paste puts in is chosen to. What a paste
inserts and where it cuts never gets in the way. But a blank line in the middle of the
entry becomes an empty one when the entry is re-based, and its newline then has no carriage
return. `paste_allCrlf_iff` says that this is the one way in which a paste breaks the rule.
-/

namespace TreeEdit

namespace Text

variable {t entry sep : Text} {o n : Nat} {node : Span}

/-- The offset falls between a carriage return and its newline. -/
def SplitsCrlf (t : Text) (o : Nat) : Prop :=
  (t.headTo o).getLast? = some '\r' ∧ (t.tailFrom o).head? = some '\n'

instance (t : Text) (o : Nat) : Decidable (t.SplitsCrlf o) := inferInstanceAs (Decidable (_ ∧ _))

theorem headTo_append_tailFrom (h : t.isBoundary o = true) : t.headTo o ++ t.tailFrom o = t := by
  obtain ⟨x, y, rfl, rfl⟩ := isBoundary_iff.1 h
  rw [headTo_size_append, tailFrom_size_append]

/-- At other boundaries the text can be taken apart. -/
theorem AllCrlf.headTo_tailFrom (h : t.AllCrlf) (ho : t.isBoundary o = true)
    (hs : ¬ t.SplitsCrlf o) : (t.headTo o).AllCrlf ∧ (t.tailFrom o).AllCrlf := by
  rw [← headTo_append_tailFrom ho] at h
  exact (allCrlf_append (not_and_or.1 hs)).1 h

theorem exists_indentAt (t : Text) (o : Nat) : ∃ u : Text, t.indentAt o = u.indentation := by
  unfold indentAt
  cases t.lineAt? o with
  | none => exact ⟨[], rfl⟩
  | some l => exact ⟨l.content, rfl⟩

/-! ## The start of what is pasted -/

/-- Re-basing leaves the first character alone. -/
theorem head?_rebase (t indent : Text) : (t.rebase indent).head? = t.head? := by
  conv => rhs; rw [← join_pieces t]
  unfold rebase
  cases t.pieces with
  | nil => rfl
  | cons first rest =>
    cases rest with
    | nil => rfl
    | cons l ls => simp [join, List.head?_append]

theorem Separates.head?_copies_ne (h : sep.Separates) (ht : t.head? ≠ some '\n') (n : Nat) :
    (t.copies sep n).head? ≠ some '\n' := by
  unfold copies
  rcases n with _ | _ | n
  · simp [join]
  · exact ht
  · obtain ⟨c, k, hk⟩ := List.exists_cons_of_ne_nil h.ne_nil
    have hc := h.allCrlf.head_ne
    rw [hk] at hc ⊢
    rw [List.replicate_succ, List.replicate_succ, join]
    · cases t with
      | nil => exact hc
      | cons d t => exact ht
    · simp

/-! ## The whole text -/

/-- The copies decide: everything around them is of the kind, and so are the breaks. -/
theorem allCrlf_withPaste_iff (ht : t.AllCrlf) (hc : t.hasCrlf = true) (he : entry.AllCrlf)
    (hstart : t.isBoundary node.start = true) (hstop : t.isBoundary node.stop = true)
    (hs : ¬ t.SplitsCrlf node.start) (hs' : ¬ t.SplitsCrlf node.stop) (hn : 0 < n)
    (placement : Placement) :
    (t.withPaste node entry n placement).AllCrlf ↔
      (t.isBlock? node = some true → ∀ l ∈ entry.pieces.tail.dropLast, l.allBlank = false) := by
  obtain ⟨hh, ht₁⟩ := ht.headTo_tailFrom hstart hs
  obtain ⟨hh', ht₂⟩ := ht.headTo_tailFrom hstop hs'
  unfold withPaste
  split
  · rename_i hb
    obtain ⟨u, hu⟩ := t.exists_indentAt node.start
    have hsep : Separates (t.lineEnding ++ t.indentAt node.start) := by
      rw [lineEnding, if_pos hc, hu]
      exact separates_break u
    have hi : '\n' ∉ t.indentAt node.start := hu ▸ u.newline_not_mem_indentation
    rw [forall_prop_of_true hb]
    refine Iff.trans ?_ ((hsep.allCrlf_copies hn).trans (allCrlf_rebase_iff he hi))
    dsimp only
    cases placement with
    | after =>
      dsimp only
      rw [List.append_assoc (t.headTo node.stop), hsep.allCrlf_iff, allCrlf_dropWhile_isIndent,
        allCrlf_append (.inr ht₂.head_ne), and_iff_right hh', and_iff_left ht₂]
    | before =>
      -- The text before the node may end in a carriage return; the copies start with no newline.
      dsimp only
      rw [List.append_assoc (_ ++ _) t.lineEnding, hsep.allCrlf_iff, allCrlf_dropWhile_isIndent,
        and_iff_left ht₁, allCrlf_append (.inr ?_), and_iff_right hh]
      exact hsep.head?_copies_ne (head?_rebase entry _ ▸ he.head_ne) n
  · rename_i hb
    have hcopies := (separates_space.allCrlf_copies (t := entry) hn).2 he
    refine iff_of_true ?_ fun h => absurd h hb
    cases placement with
    | after =>
      rw [List.append_assoc, separates_space.allCrlf_iff, allCrlf_append (.inr ht₂.head_ne)]
      exact ⟨hh', hcopies, ht₂⟩
    | before =>
      rw [separates_space.allCrlf_iff, allCrlf_append (.inr hcopies.head_ne)]
      exact ⟨⟨hh, hcopies⟩, ht₁⟩

end Text

namespace Engine

variable {P : Parser} {e e' : Engine} {entry : Text} {span : Span} {count : Nat}
  {placement : Placement}

/-- If the text has carriage returns in front of all its newlines, and so has the entry, then a
paste next to a node that does not cut one off leaves a text of that kind exactly if the node is
inside a line or no line in the middle of the entry is blank. -/
theorem paste_allCrlf_iff {r : NodeRef} {a : Address} (hw : (e.tree P).WellFormed e.buffer.text)
    (htop : e.killRing.top? = some entry) (hr : (e.current P).1 = some r)
    (ha : (e.tree P).spanAt a = r.span) (hc : e.buffer.text.hasCrlf = true)
    (ht : e.buffer.text.AllCrlf) (he : entry.AllCrlf)
    (hs : ¬ e.buffer.text.SplitsCrlf r.span.start) (hs' : ¬ e.buffer.text.SplitsCrlf r.span.stop)
    (h : (paste P count placement).perform e = (.ok (.pasted span), e')) :
    e'.buffer.text.AllCrlf ↔ (e.buffer.text.isBlock? r.span = some true →
      ∀ l ∈ entry.pieces.tail.dropLast, l.allBlank = false) := by
  rw [text_of_paste hw htop hr ha h]
  exact Text.allCrlf_withPaste_iff ht hc he (ha ▸ hw.fits.start a) (ha ▸ hw.fits.stop a) hs hs'
    (by omega) placement

/-- Two copies of two lines in front of a letter on a line of its own. -/
theorem paste_allCrlf_iff_lines :
    ∃ e', (paste .letters 2 .before).perform
        (holding ['a', '\r', '\n', 'b'] 3 ['x', '\r', '\n', 'y']) = (.ok (.pasted ⟨3, 13⟩), e') ∧
      e'.buffer.text.AllCrlf := by
  obtain ⟨e', h⟩ : ∃ e', (paste .letters 2 .before).perform
      (holding ['a', '\r', '\n', 'b'] 3 ['x', '\r', '\n', 'y']) = (.ok (.pasted ⟨3, 13⟩), e') :=
    ⟨_, rfl⟩
  have hiff := paste_allCrlf_iff (P := .letters) (a := [1]) (Parser.wellFormed_letters _ _) rfl rfl
    rfl rfl (by decide) (by decide) (by decide) (by decide) h
  exact ⟨e', h, hiff.2 (by decide)⟩

/-- With a blank line between the two, its newline loses the carriage return. -/
theorem paste_not_allCrlf :
    Text.AllCrlf ['a', '\r', '\n', 'b'] ∧ Text.hasCrlf ['a', '\r', '\n', 'b'] = true ∧
    Text.AllCrlf ['x', '\r', '\n', '\r', '\n', 'y'] ∧
    (focus .letters (holding ['a', '\r', '\n', 'b'] 3 ['x', '\r', '\n', '\r', '\n', 'y'])).1
      = some [1] ∧
    (Parser.letters 0 ['a', '\r', '\n', 'b']).spanAt [1] = ⟨3, 4⟩ ∧
    ¬ Text.SplitsCrlf ['a', '\r', '\n', 'b'] 3 ∧ ¬ Text.SplitsCrlf ['a', '\r', '\n', 'b'] 4 ∧
    ∃ e', (paste .letters 1 .before).perform
        (holding ['a', '\r', '\n', 'b'] 3 ['x', '\r', '\n', '\r', '\n', 'y'])
          = (.ok (.pasted ⟨3, 8⟩), e') ∧
      e'.buffer.text = ['a', '\r', '\n', 'x', '\r', '\n', '\n', 'y', '\r', '\n', 'b'] ∧
      ¬ e'.buffer.text.AllCrlf := by
  refine ⟨by decide, rfl, by decide, rfl, rfl, by decide, by decide, _, rfl, rfl, ?_⟩
  decide

end Engine

end TreeEdit
