import TreeEdit.Buffer
import TreeEdit.Proofs.Text
/-!
# What the operations of a buffer do

Each operation is summed up once, as an answer and a next state, for a text that is
given in parts: `perform_replace` for an edit that knows what it replaces, and from
it insertions, deletions, the removal of a line and a new indentation. They all
succeed. Later proofs use these equations and do not look at the edits again.

`Valid` says that point is a boundary. No edit breaks it (`valid_apply`).
-/

namespace TreeEdit

namespace Action

variable {σ α β : Type}

theorem perform_bind_of_ok {x : Action σ α} {f : α → Action σ β} {s s' : σ} {a : α}
    (h : x.perform s = (.ok a, s')) : (x >>= f).perform s = (f a).perform s' := by
  rw [perform_bind, h]

theorem perform_bind_of_error {x : Action σ α} {f : α → Action σ β} {s s' : σ} {e : Failure}
    (h : x.perform s = (.error e, s')) : (x >>= f).perform s = (.error e, s') := by
  rw [perform_bind, h]

/-- An answer that is passed on in another form. -/
theorem perform_map (x : Action σ α) (f : α → β) (s : σ) :
    (do return f (← x) : Action σ β).perform s = ((x.perform s).1.map f, (x.perform s).2) := by
  rw [perform_bind]
  cases x.perform s with
  | mk r s' => cases r <;> rfl

end Action

namespace Buffer

/-! ## Point -/

/-- Point is a boundary of the text. -/
def Valid (b : Buffer) : Prop := b.text.isBoundary b.point = true

theorem valid_ofText (t : Text) (l : Language) : (ofText t l).Valid := Text.isBoundary_zero t

theorem valid_setPoint (b : Buffer) (o : Nat) : (b.setPoint o).Valid :=
  Text.isBoundary_floor b.text o

/-- Where point goes is a boundary of the new text. -/
theorem isBoundary_follow {e : Edit} {x y z : Text} {p : Nat} (hs : x.size = e.span.start)
    (ht : (x ++ y).size = e.span.stop) (h : (x ++ y ++ z).isBoundary p = true) :
    (x ++ e.replacement ++ z).isBoundary (e.follow p) = true := by
  unfold Edit.follow
  -- Point stands behind the span, inside of it, or before it.
  split
  · rename_i hp
    have hz : z.isBoundary (p - (x ++ y).size) = true := Text.isBoundary_of_ge h (by omega)
    have hr := Text.isBoundary_append_right hz (x ++ e.replacement)
    have hn : (x ++ e.replacement).size + (p - (x ++ y).size)
        = p - e.span.size + e.replacement.size := by
      simp only [Text.size_append, Span.size] at ht ⊢
      omega
    rwa [hn] at hr
  · split
    · rw [← hs, List.append_assoc]
      exact Text.isBoundary_append_left (Text.isBoundary_size x) _
    · rw [List.append_assoc] at h ⊢
      exact Text.isBoundary_append_left (Text.isBoundary_of_le h (by omega)) _

/-- An edit, applied or not, leaves point at a boundary. -/
theorem valid_apply {b : Buffer} (h : b.Valid) (e : Edit) : ((apply e).perform b).2.Valid := by
  cases hs : e.site b.text with
  | error err => rwa [apply_of_no_site hs]
  | ok parts =>
    obtain ⟨x, y, z⟩ := parts
    obtain ⟨ht, hx, hy⟩ := Edit.site_eq_ok_iff.1 hs
    by_cases hd : y = e.replacement
    · subst hd
      rwa [apply_of_done hs]
    · cases hv : e.expected.accepts y with
      | false => rwa [apply_of_mismatch hs hd hv]
      | true =>
        rw [apply_of_match hs hd hv]
        unfold Valid at h
        rw [ht] at h
        exact isBoundary_follow hx hy h

/-- An edit that fails was rejected and has changed nothing. -/
theorem apply_eq_error {b b' : Buffer} {e : Edit} {f : Failure}
    (h : (apply e).perform b = (.error f, b')) : b' = b ∧ ∃ err, f = .rejected err := by
  cases hs : e.site b.text with
  | error err =>
    rw [apply_of_no_site hs] at h
    obtain ⟨hf, rfl⟩ := Prod.mk.inj h
    exact ⟨rfl, err, (Except.error.inj hf).symm⟩
  | ok parts =>
    obtain ⟨x, y, z⟩ := parts
    by_cases hd : y = e.replacement
    · subst hd
      rw [apply_of_done hs] at h
      simp at h
    · cases hv : e.expected.accepts y with
      | false =>
        rw [apply_of_mismatch hs hd hv] at h
        obtain ⟨hf, rfl⟩ := Prod.mk.inj h
        exact ⟨rfl, _, (Except.error.inj hf).symm⟩
      | true =>
        rw [apply_of_match hs hd hv] at h
        simp at h

/-! ## Replacing a part of the text -/

/-- The buffer after `old`, which stands between `x` and `z`, has been replaced by `new`. Nothing
happens if the two are the same. -/
def splice (b : Buffer) (x old new z : Text) : Buffer :=
  if old = new then b
  else
    { b with
      text := x ++ new ++ z
      point := (Edit.replace ⟨x.size, (x ++ old).size⟩ new old).follow b.point
      revision := b.revision + 1 }

variable {b : Buffer} {x y z : Text}

theorem splice_text {new : Text} (h : b.text = x ++ y ++ z) :
    (b.splice x y new z).text = x ++ new ++ z := by
  unfold splice
  split
  · rename_i he
    rw [h, he]
  · rfl

/-- An edit that expects what it finds succeeds. -/
theorem perform_replace (h : b.text = x ++ y ++ z) (new : Text) :
    ∃ r, (apply (.replace ⟨x.size, (x ++ y).size⟩ new y)).perform b
      = (.ok r, b.splice x y new z) := by
  have hs : (Edit.replace ⟨x.size, (x ++ y).size⟩ new y).site b.text = .ok (x, y, z) :=
    Edit.site_eq_ok_iff.2 ⟨h, rfl, rfl⟩
  by_cases hd : y = new
  · subst hd
    exact ⟨_, by rw [apply_of_done hs, splice, if_pos rfl]⟩
  · exact ⟨_, by rw [apply_of_match hs hd (Verification.accepts_ofText y), splice, if_neg hd]; rfl⟩

theorem perform_insert (h : b.text = x ++ z) (t : Text) :
    ∃ r, (insert x.size t).perform b = (.ok r, b.splice x [] t z) := by
  obtain ⟨r, hr⟩ := perform_replace (y := []) (by simpa using h) t
  refine ⟨r, ?_⟩
  rw [← hr]
  simp [insert, Edit.insert]

theorem perform_delete (h : b.text = x ++ y ++ z) :
    (delete ⟨x.size, (x ++ y).size⟩).perform b = (.ok y, b.splice x y [] z) := by
  have hs : b.text.slice? x.size (x ++ y).size = some y :=
    Text.slice?_eq_some_iff.2 ⟨x, z, h, rfl, rfl⟩
  obtain ⟨r, hr⟩ := perform_replace h []
  have hd : (apply (.delete ⟨x.size, (x ++ y).size⟩ y)).perform b = (.ok r, b.splice x y [] z) := hr
  unfold delete
  rw [Action.perform_bind_of_ok (Action.perform_get b)]
  simp only [hs]
  rw [Action.perform_bind_of_ok hd]
  rfl

/-- A span without text of its own is rejected, and nothing changes. -/
theorem perform_delete_of_none {s : Span} (h : b.text.slice? s.start s.stop = none) :
    (delete s).perform b = (.error (.rejected (.invalidRange s b.text.size)), b) := by
  unfold delete
  rw [Action.perform_bind_of_ok (Action.perform_get b)]
  simp only [h]
  rfl

/-! ## Lines -/

theorem lineAt_of_some {o : Nat} {l : Line} (h : b.text.lineAt? o = some l) :
    (lineAt o).perform b = (.ok l, b) := by
  unfold lineAt
  rw [Action.perform_bind_of_ok (Action.perform_get b), h]
  rfl

theorem perform_lineAt (h : b.text = x ++ z) :
    (lineAt x.size).perform b = (.ok (Text.lineBetween x z), b) :=
  lineAt_of_some (by rw [h, Text.lineAt?_size_append])

/-- Removing a line leaves the rest of the text. -/
theorem perform_deleteLine (h : b.text = x ++ z) :
    ∃ u v w, b.text = u ++ v ++ w ∧ u ++ w = (Text.lineBetween x z).rest ∧
      (Text.lineBetween x z).removal = ⟨u.size, (u ++ v).size⟩ ∧
      (deleteLine x.size).perform b
        = (.ok (Text.lineBetween x z).removal, b.splice u v [] w) := by
  obtain ⟨u, v, w, ht, hr, hw, -⟩ := (Text.delimits_lineBetween x z).removal_cut
  refine ⟨u, v, w, h.trans ht, hw, hr, ?_⟩
  unfold deleteLine
  rw [Action.perform_bind_of_ok (perform_lineAt h), hr,
    Action.perform_bind_of_ok (perform_delete (h.trans ht))]
  rfl

/-- A new indentation replaces the spaces and tabs that the line starts with. -/
theorem perform_reindent {o : Nat} {l : Line} (h : b.text.lineAt? o = some l) (indent : Text) :
    (reindent o indent).perform b
      = (.ok ((indent.size : Int) - l.indentation.size),
        b.splice l.before l.indentation indent (l.content.dropWhile isIndent ++ l.behind)) := by
  have ht : b.text = l.before ++ l.indentation ++ (l.content.dropWhile isIndent ++ l.behind) :=
    (Text.append_of_lineAt? h).1.trans l.append_indentation.symm
  unfold reindent
  rw [Action.perform_bind_of_ok (lineAt_of_some h)]
  by_cases hi : l.indentation = indent
  · rw [if_pos hi, splice, if_pos hi, hi, Int.sub_self]
    rfl
  · obtain ⟨r, hr⟩ := perform_replace ht indent
    have hf : l.firstNonBlank = (l.before ++ l.indentation).size := by
      rw [Line.firstNonBlank, Line.start, Text.size_append]
    rw [if_neg hi, hf, Line.start, Action.perform_bind_of_ok hr]
    simp [Edit.delta, Edit.replace, Span.size]

/-- At the start of a line, the indentation that is replaced is that of the text behind it. -/
theorem perform_reindent_of_lineStart (hx : x.AtLineStart) (h : b.text = x ++ z) (indent : Text) :
    (reindent x.size indent).perform b
      = (.ok ((indent.size : Int) - z.indentation.size),
        b.splice x z.indentation indent (z.dropWhile isIndent)) := by
  have hl : b.text.lineAt? x.size = some ⟨x, z.takeWhile Text.inLine, z.dropWhile Text.inLine⟩ := by
    rw [h, Text.lineAt?_size_append]
    simpa using Text.lineBetween_of_lineStart hx (w := []) (by simp) z
  have hi : Text.indentation (z.takeWhile Text.inLine) = z.indentation :=
    Text.indentation_takeWhile_inLine z
  have hz : (z.takeWhile Text.inLine).dropWhile isIndent ++ z.dropWhile Text.inLine
      = z.dropWhile isIndent := by
    refine List.append_cancel_left (?_ : z.indentation ++ _ = z.indentation ++ _)
    rw [Text.indentation_append_dropWhile, ← hi, ← List.append_assoc,
      Text.indentation_append_dropWhile, List.takeWhile_append_dropWhile]
  rw [perform_reindent hl, Line.indentation, hi]
  dsimp only
  rw [hz]

end Buffer

end TreeEdit
