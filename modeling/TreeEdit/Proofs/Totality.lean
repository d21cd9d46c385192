import TreeEdit.Proofs.Reachable
import TreeEdit.Proofs.Tree.Count
import TreeEdit.Proofs.Words
/-!
# Commands that never fail

From a node of a well-formed tree a deletion always finds what it is asked for: the nodes
it takes start and stop at boundaries, they lie one behind the other, and the node behind
them does not reach into them (`site_target`). So nothing of it is rejected and nothing
faults, also not the removal of the line that it leaves blank.

`InWords` says the same of the arithmetic of a machine, for which point has to be a boundary
as well. `execute_total` is the account of all commands but pasting, in every session that
can be reached.
-/

namespace TreeEdit

namespace Engine

variable {P : Parser} {e : Engine}

/-! ## What a deletion is asked for -/

/-- The span that a deletion takes and the span of the node it selects then. -/
def target (t : Tree) (a : Address) (count : Nat) : Direction → Span × Option Span
  | .forward =>
    (forwardSpan t a count, (t.next? (Tree.nth t.next? (max count 1) a)).map t.spanAt)
  | .backward =>
    (backwardSpan t a count, (t.previous? (Tree.nth t.previous? (max count 1) a)).map t.spanAt)

/-- The span is one of the text, and so is that of the neighbour; a neighbour behind the span does
not reach into it. -/
structure Site (x : Text) (d : Direction) (span : Span) (neighbour : Option Span) : Prop where
  start : x.isBoundary span.start = true
  stop : x.isBoundary span.stop = true
  start_le_stop : span.start ≤ span.stop
  neighbour_stop : ∀ n ∈ neighbour, n.stop ≤ x.size
  behind : d = .forward → ∀ n ∈ neighbour, span.stop ≤ n.start

/-- Whatever the count, a deletion from a node of a well-formed tree has a site. -/
theorem site_target {t : Tree} {x : Text} (hw : t.WellFormed x) {a : Address}
    (ha : t.has a = true) (count : Nat) (d : Direction) :
    Site x d (target t a count d).1 (target t a count d).2 := by
  have hn : ∀ (o : Option Address), ∀ n ∈ o.map t.spanAt, n.stop ≤ x.size := by
    intro o n hn
    obtain ⟨b, -, rfl⟩ := Option.map_eq_some_iff.1 hn
    exact Text.le_size_of_isBoundary (hw.fits.stop b)
  cases d with
  | forward =>
    refine ⟨hw.fits.start a, hw.fits.stop _, ?_, hn _, fun _ n hn => ?_⟩
    · exact Nat.le_trans (hw.ordered.spanAt_le a) (hw.ordered.stop_le_walk _ a)
    · obtain ⟨b, hb, rfl⟩ := Option.map_eq_some_iff.1 hn
      exact hw.ordered.stop_le_next hb
  | backward =>
    refine ⟨hw.fits.start _, hw.fits.stop a, ?_, hn _, fun hd => by simp at hd⟩
    exact Nat.le_trans (hw.ordered.walk_start_le _ ha) (hw.ordered.spanAt_le a)

namespace Site

variable {t : Text} {d : Direction} {span : Span} {neighbour : Option Span}

theorem parts (h : Site t d span neighbour) :
    ∃ x y z, t = x ++ y ++ z ∧ span = ⟨x.size, (x ++ y).size⟩ := by
  obtain ⟨x, y, z, ht, hx, hy⟩ := Text.exists_parts h.start h.stop h.start_le_stop
  exact ⟨x, y, z, ht, by rw [hx, hy]⟩

/-- The neighbour has a place in the text that is left. -/
theorem tracked (h : Site t d span neighbour) (b : Buffer) :
    ∃ tracked, (neighbour.mapM (startAfterRemoval d span)).perform b = (.ok tracked, b) := by
  refine startAfterRemoval_of_le (fun hd n hn => ?_) b
  have hle := h.behind hd n hn
  unfold Span.size
  omega

/-- The end of the node to be selected is a word, wherever point settles in what is left. -/
theorem extent (h : Site t d span neighbour) (hf : t.size < signedLimit) {b : Buffer}
    (hb : b.text.size ≤ t.size) (o : Nat) :
    ∀ n ∈ neighbour, (b.setPoint o).point + n.size < wordLimit := by
  intro n hn
  have hp : (b.setPoint o).point ≤ b.text.size := Text.le_size_of_isBoundary (b.valid_setPoint o)
  have hstop := h.neighbour_stop n hn
  simp only [signedLimit, wordLimit, Span.size] at hf ⊢
  omega

end Site

/-! ## Deletions -/

/-- The arithmetic of a deletion in machine words. It removes the span, which leaves `b`, and with
it perhaps a line, which leaves `b'`; the neighbour starts at `tracked` in between, and at
`tracked'` in the end. -/
structure DeletesInWords (P : Parser) (d : Direction) (span : Span) (neighbour : Option Span)
    (clean : Bool) (e : Engine) (b b' : Buffer) (tracked tracked' : Option Nat) : Prop where
  removes : e.buffer.RemovesInWords span b
  start : (neighbour.mapM (startAfterRemoval d span)).perform b = (.ok tracked, b)
  line : (b' = b ∧ tracked' = tracked) ∨
    ∃ l, b.text.lineAt? span.start = some l ∧ b.RemovesInWords l.removal b' ∧
      tracked.mapM l.removal.shiftPast? = some tracked'
  /-- The end of the node to be selected is a word, wherever point settles. -/
  extent : ∀ o, ∀ n ∈ neighbour, (b'.setPoint o).point + n.size < wordLimit
  performs : ∃ ring, (deleteSpan P d span neighbour clean).perform e
    = (.ok (.deleted span), Engine.settle P { e with buffer := b', killRing := ring }
        (tracked'.getD (min b'.point span.start)) (neighbour.map Span.size))

theorem mapM_shiftPast? (s : Span) (o : Option Nat) :
    o.mapM s.shiftPast? = some (o.map s.shiftPast) := by
  cases o with
  | none => rfl
  | some n => simp [s.shiftPast?_eq n]

namespace Tidied

variable {clean : Bool} {x z : Text} {b b' : Buffer} {tracked tracked' : Option Nat}

theorem size_le (h : Tidied clean x z b b' tracked tracked') : b'.text.size ≤ b.text.size := by
  rcases h with ⟨-, rfl, -⟩ | ⟨-, -, -, u, v, w, ht, -, -, rfl⟩
  · exact Nat.le_refl _
  · exact Buffer.size_splice_le ht

/-- The line that goes is one of the text, so it can be removed in machine words. -/
theorem inWords (h : Tidied clean x z b b' tracked tracked') (hb : b.text = x ++ z) (hv : b.Valid)
    (hf : b.text.size < signedLimit) (hr : b.revision + 1 < wordLimit) :
    (b' = b ∧ tracked' = tracked) ∨
      ∃ l, b.text.lineAt? x.size = some l ∧ b.RemovesInWords l.removal b' ∧
        tracked.mapM l.removal.shiftPast? = some tracked' := by
  rcases h with ⟨-, hb', ht⟩ | ⟨-, -, ht, u, v, w, hu, -, hl, rfl⟩
  · exact .inl ⟨hb', ht⟩
  · refine .inr ⟨Text.lineBetween x z, ?_, ?_, ?_⟩
    · rw [hb]
      exact Text.lineAt?_size_append x z
    · rw [hl]
      exact Buffer.removesInWords hv hu hf hr
    · rw [ht]
      exact mapM_shiftPast? _ _

end Tidied

variable {d : Direction} {span : Span} {neighbour : Option Span}

/-- Nothing of a deletion with a site is rejected, and nothing faults. -/
theorem deleteSpan_of_site (h : Site e.buffer.text d span neighbour) (clean : Bool) :
    ∃ e', (deleteSpan P d span neighbour clean).perform e = (.ok (.deleted span), e') := by
  obtain ⟨x, y, z, ht, rfl⟩ := h.parts
  obtain ⟨tracked, hn⟩ := h.tracked (e.buffer.splice x y [] z)
  obtain ⟨b, tracked', -, hp⟩ := deleteSpan_of_tracked (P := P) ht hn clean
  exact ⟨_, hp⟩

theorem deletesInWords_of_site (hv : e.buffer.Valid) (hf : e.buffer.text.size < signedLimit)
    (hr : e.buffer.revision + 2 < wordLimit) (h : Site e.buffer.text d span neighbour)
    (clean : Bool) :
    ∃ b b' tracked tracked', DeletesInWords P d span neighbour clean e b b' tracked tracked' := by
  obtain ⟨x, y, z, ht, rfl⟩ := h.parts
  obtain ⟨tracked, hn⟩ := h.tracked (e.buffer.splice x y [] z)
  obtain ⟨b', tracked', hb, hp⟩ := deleteSpan_of_tracked (P := P) ht hn clean
  -- What the removal of the span leaves is as good a buffer as the one before.
  have ht₁ : (e.buffer.splice x y [] z).text = x ++ z := by
    rw [Buffer.splice_text ht, List.append_nil]
  have hs₁ : (e.buffer.splice x y [] z).text.size ≤ e.buffer.text.size := Buffer.size_splice_le ht
  have hr₁ := e.buffer.revision_splice_le x y z
  exact ⟨_, b', tracked, tracked', {
    removes := Buffer.removesInWords hv ht hf (by omega)
    start := hn
    line := hb.inWords ht₁ (Buffer.valid_splice hv ht) (by omega) (by omega)
    extent := h.extent hf (Nat.le_trans hb.size_le hs₁)
    performs := ⟨_, hp⟩ }⟩

/-! ## Commands -/

/-- The text and the tree fit the memory that a machine with words of 64 bits can address, and the
two changes that a command may make can still be counted. -/
structure FitsMachine (P : Parser) (e : Engine) : Prop where
  text : e.buffer.text.size < signedLimit
  tree : (e.tree P).count < signedLimit
  revision : e.buffer.revision + 2 < wordLimit

/-- The deletion of `count` nodes from the node in focus, if there is one, in machine words. -/
def DeletionInWords (P : Parser) (d : Direction) (count : Nat) (clean : Bool) (e : Engine) : Prop :=
  ∀ a, (e.focus P).1 = some a → ∃ b b' tracked tracked',
    DeletesInWords P d (target (e.tree P) a count d).1 (target (e.tree P) a count d).2 clean
      (e.focus P).2 b b' tracked tracked'

/-- The arithmetic of a command in machine words has answers. -/
def InWords (P : Parser) (e : Engine) : Command → Prop
  | .move m count => ∃ k, Move.sum? (List.replicate k m.unit) = some (e.move P m count).1 ∧
      (e.move P m count).1.magnitude? = some k
  | .delete count => e.DeletionInWords P .forward count !e.keepEmptyLines
  | .deleteKeep count => e.DeletionInWords P .forward count false
  | .deleteBack count => e.DeletionInWords P .backward count true
  | _ => True

theorem site_of_focus (hP : P.WellFormed) {a : Address} (ha : (e.focus P).1 = some a)
    (count : Nat) (d : Direction) :
    Site (e.focus P).2.buffer.text d (target (e.tree P) a count d).1
      (target (e.tree P) a count d).2 := by
  rw [focus_buffer]
  exact site_target (hP _ _) (has_of_focus ha) count d

/-- An action that deletes from the node in focus succeeds, and does nothing only without one. -/
theorem deletion_ok (hP : P.WellFormed) {x : Action Engine EditOutcome} {count : Nat} {clean : Bool}
    (hx : x.perform e = match (e.focus P).1 with
      | none => (.ok .nothing, (e.focus P).2)
      | some a => (deleteSpan P d (target (e.tree P) a count d).1 (target (e.tree P) a count d).2
          clean).perform (e.focus P).2) :
    ∃ o e', x.perform e = (.ok o, e') ∧ (o = .nothing → (e.focus P).1 = none) := by
  cases ha : (e.focus P).1 with
  | none =>
    rw [ha] at hx
    exact ⟨_, _, hx, fun _ => rfl⟩
  | some a =>
    rw [ha] at hx
    obtain ⟨e', he⟩ := deleteSpan_of_site (P := P) (site_of_focus hP ha count d) clean
    exact ⟨_, e', hx.trans he, fun h => by simp at h⟩

theorem yank_nothing (hP : P.WellFormed) {count : Nat} (h : (e.yank P count).1 = .nothing) :
    (e.focus P).1 = none := by
  cases ha : (e.focus P).1 with
  | none => rfl
  | some a =>
    have hf : e.focus P = (some a, (e.focus P).2) := by rw [← ha]
    -- The text of the nodes is there to be copied.
    obtain ⟨x, y, z, ht, hspan⟩ := (site_of_focus hP ha count .forward).parts
    have hs : (e.focus P).2.buffer.text.slice? (forwardSpan (e.tree P) a count).start
        (forwardSpan (e.tree P) a count).stop = some y := by
      have hfs : forwardSpan (e.tree P) a count = ⟨x.size, (x ++ y).size⟩ := hspan
      rw [hfs]
      exact Text.slice?_eq_some_iff.2 ⟨x, z, ht, rfl, rfl⟩
    unfold yank at h
    rw [hf] at h
    dsimp only at h
    rw [focus_tree, hs] at h
    simp at h

theorem deletionInWords (hP : P.WellFormed) (hv : e.buffer.Valid) (hf : e.FitsMachine P)
    (d : Direction) (count : Nat) (clean : Bool) : e.DeletionInWords P d count clean := by
  obtain ⟨ht, -, hr⟩ := hf
  intro a ha
  rw [← focus_buffer (P := P) e] at hv ht hr
  exact deletesInWords_of_site hv ht hr (site_of_focus hP ha count d) clean

/-- The steps of a movement are fewer than the nodes, so they add up in machine words. -/
theorem moveInWords (hf : e.FitsMachine P) (m : Motion) (count : Nat) :
    ∃ k, Move.sum? (List.replicate k m.unit) = some (e.move P m count).1 ∧
      (e.move P m count).1.magnitude? = some k := by
  have hzero : Move.sum? (List.replicate 0 m.unit) = some .none ∧
      Move.none.magnitude? = some 0 := ⟨rfl, rfl⟩
  cases ha : (e.focus P).1 with
  | none =>
    rw [move_of_no_focus ha]
    exact ⟨0, hzero⟩
  | some a =>
    rw [move_of_focus ha]
    split
    · exact ⟨0, hzero⟩
    · have hk := Nat.lt_trans (Tree.stepsFrom_lt_count m count (has_of_focus ha)) hf.tree
      exact ⟨_, Move.sum?_replicate m hk, Move.magnitude?_times m hk⟩

/-- The outcome of an edit is passed on as that of a command. -/
theorem perform_edited {x : Action Engine EditOutcome} {n : Prop}
    (h : ∃ o e', x.perform e = (.ok o, e') ∧ (o = .nothing → n)) :
    ∃ o e', (do return CommandOutcome.edited (← x) : Action Engine CommandOutcome).perform e
      = (.ok o, e') ∧ (o = .edited .nothing → n) := by
  obtain ⟨o, e', hx, hn⟩ := h
  refine ⟨.edited o, e', ?_, fun ho => hn (CommandOutcome.edited.inj ho)⟩
  rw [Action.perform_bind_of_ok hx]
  rfl

theorem execute_ok (hP : P.WellFormed) {c : Command} (hc : ∀ n p, c ≠ .paste n p) :
    ∃ o e', (execute P c).perform e = (.ok o, e') ∧
      (o = .edited .nothing → (e.focus P).1 = none) := by
  cases c with
  | move m n => exact ⟨_, _, rfl, fun h => by simp at h⟩
  | delete n =>
    exact perform_edited (deletion_ok hP (perform_deleteForward P e n e.keepEmptyLines))
  | deleteKeep n => exact perform_edited (deletion_ok hP (perform_deleteForward P e n true))
  | deleteBack n => exact perform_edited (deletion_ok hP (perform_deleteBackward P e n))
  | yank n =>
    exact ⟨_, _, rfl, fun h => yank_nothing hP (CommandOutcome.edited.inj h)⟩
  | paste n p => exact absurd rfl (hc n p)
  | query p => exact ⟨_, _, rfl, fun h => by simp at h⟩
  | goto o => exact ⟨_, _, rfl, fun h => by simp at h⟩

theorem inWords (hP : P.WellFormed) (hv : e.buffer.Valid) (hf : e.FitsMachine P) (c : Command) :
    e.InWords P c := by
  cases c with
  | move m n => exact moveInWords hf m n
  | delete n => exact deletionInWords hP hv hf .forward n _
  | deleteKeep n => exact deletionInWords hP hv hf .forward n _
  | deleteBack n => exact deletionInWords hP hv hf .backward n _
  | yank n => trivial
  | paste n p => trivial
  | query p => trivial
  | goto o => trivial

end Engine

namespace Session

/-- In a reachable session every command but a paste succeeds, whatever its count, and an edit does
nothing only if no node is in focus. If the engine fits the machine, all the arithmetic on the way
has answers in machine words. -/
theorem execute_total {P : Parser} (hP : P.WellFormed) {s : Session} (hs : Reachable P s)
    {c : Command} (hc : ∀ n p, c ≠ .paste n p) :
    (∃ o e', (Engine.execute P c).perform s.engine = (.ok o, e') ∧
      (o = .edited .nothing → (s.engine.focus P).1 = none)) ∧
    (s.engine.FitsMachine P → s.engine.InWords P c) :=
  ⟨Engine.execute_ok hP hc, fun hf => Engine.inWords hP (hs.coherent hP).point hf c⟩

/-- A session on three letters, the second one indented on a line of its own. -/
def onLines : Session := ofBuffer (.ofText ['a', '\n', ' ', ' ', 'b', '\n', 'c'] .json) .silent

/-- The second letter goes with its line and the third one is selected; and no count is too great
for a movement or a copy. -/
theorem execute_total_lines :
    ∃ s, onLines.run .letters [.setPoint 4] = some s ∧ Reachable .letters s ∧
      s.engine.FitsMachine .letters ∧
      (∃ e', (Engine.execute .letters (.delete 1)).perform s.engine
        = (.ok (.edited (.deleted ⟨4, 5⟩)), e') ∧ e'.buffer.text = ['a', '\n', 'c'] ∧
        e'.cursor.region = some ⟨2, 3⟩) ∧
      s.engine.InWords .letters (.delete 1) ∧
      s.engine.InWords .letters (.move .next (wordLimit - 1)) ∧
      ∃ o e', (Engine.execute .letters (.yank (wordLimit - 1))).perform s.engine = (.ok o, e') ∧
        o ≠ .edited .nothing := by
  obtain ⟨s, hrun, hfit, hfocus, hdelete⟩ : ∃ s, onLines.run .letters [.setPoint 4] = some s ∧
      s.engine.FitsMachine .letters ∧ (s.engine.focus .letters).1 = some [1] ∧
      ∃ e', (Engine.execute .letters (.delete 1)).perform s.engine
        = (.ok (.edited (.deleted ⟨4, 5⟩)), e') ∧ e'.buffer.text = ['a', '\n', 'c'] ∧
        e'.cursor.region = some ⟨2, 3⟩ :=
    ⟨_, rfl, ⟨by decide, by decide, by decide⟩, rfl, _, rfl, rfl, rfl⟩
  have hs : Reachable .letters s := ⟨onLines, _, .plain _ _ _ _, hrun⟩
  have h (c : Command) (hc : ∀ n p, c ≠ .paste n p) :=
    execute_total Parser.wellFormed_letters hs hc
  refine ⟨s, hrun, hs, hfit, hdelete, (h _ (by simp)).2 hfit, (h _ (by simp)).2 hfit, ?_⟩
  obtain ⟨o, e', he, hn⟩ := (h (.yank (wordLimit - 1)) (by simp)).1
  refine ⟨o, e', he, fun ho => ?_⟩
  rw [hfocus] at hn
  exact absurd (hn ho) (by simp)

end Session

end TreeEdit
