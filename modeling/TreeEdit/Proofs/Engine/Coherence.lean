import TreeEdit.Command
import TreeEdit.Proofs.Engine.Deletion
import TreeEdit.Proofs.Engine.Paste
import TreeEdit.Proofs.Tree.Steps
/-!
# Coherent engines

In a coherent engine the region is the span of the selected node, the highlight is
the region, the selected node is one of the present tree, and point is a boundary.

`Keeps` says that an action leaves a coherent engine behind unless it ends in a
fault, and that point is at the start of the selected node after certain answers.
While an edit is under way the engine is not coherent: its selected node is one of
the tree before. What carries the proofs over that gap is that `settle` needs no
more than a coherent cursor (`settle_coherent`), and that nothing is rejected once
the text has changed.
-/

namespace TreeEdit

/-! ## The cursor -/

/-- What is highlighted after the events, the oldest first. -/
def shown (es : List HighlightEvent) : Option Span :=
  match es.getLast? with
  | some (.set s) => some s
  | _ => none

/-- The region is the span of the selected node, and what the recorder shows if one is on. -/
structure Cursor.Coherent (on : Bool) (c : Cursor) : Prop where
  region : c.region = c.current.map NodeRef.span
  highlight : on = true → ∃ es, c.highlighter = .recorder es ∧ shown es = c.region

namespace Cursor

variable {on : Bool} {c : Cursor}

theorem coherent_empty {h : Highlighter} (hh : on = true → h = .recorder []) :
    (empty h).Coherent on := ⟨rfl, fun ho => ⟨[], hh ho, rfl⟩⟩

theorem Coherent.select (h : c.Coherent on) (r : NodeRef) : (c.select r).Coherent on := by
  refine ⟨rfl, fun ho => ?_⟩
  obtain ⟨es, he, -⟩ := h.highlight ho
  exact ⟨es ++ [.set r.span], by rw [Cursor.select, he]; rfl, by simp [shown, Cursor.select]⟩

theorem Coherent.invalidate (h : c.Coherent on) : c.invalidate.Coherent on := by
  refine ⟨rfl, fun ho => ?_⟩
  obtain ⟨es, he, hs⟩ := h.highlight ho
  unfold Cursor.invalidate
  split
  · exact ⟨es ++ [.clear], by rw [he]; rfl, by simp [shown]⟩
  · -- Nothing was selected, so nothing is shown already.
    rename_i hn
    have hr : c.region = none := by simp_all
    exact ⟨es, he, hs.trans hr⟩

end Cursor

/-! ## The engine -/

/-- The outcome is one of an edit that brings point to a node. -/
def EditOutcome.relocates : EditOutcome → Bool
  | deleted _ => true
  | pasted _ => true
  | _ => false

/-- The outcome is one of a command that brings point to a node. -/
def CommandOutcome.relocates : CommandOutcome → Bool
  | moved m => !m.isNone
  | edited o => o.relocates
  | _ => false

namespace Engine

/-- The cursor is coherent, the selected node is a node of the present tree, and point is a
boundary of the text. -/
structure Coherent (P : Parser) (on : Bool) (e : Engine) : Prop where
  cursor : e.cursor.Coherent on
  node : ∀ r, e.cursor.current = some r →
    ∃ a, (e.tree P).has a = true ∧ r = .capture (e.tree P) a e.buffer.revision
  point : e.buffer.Valid

/-- Point is at the start of the selected node, if there is one. -/
def Landed (e : Engine) : Prop :=
  ∀ r, e.cursor.current = some r → e.buffer.point = r.span.start

variable {P : Parser} {on : Bool} {e e' : Engine}

theorem coherent_of_no_selection (hc : e.cursor.Coherent on) (hn : e.cursor.current = none)
    (hp : e.buffer.Valid) : e.Coherent P on := by
  refine ⟨hc, fun r hr => ?_, hp⟩
  rw [hn] at hr
  simp at hr

/-- The kill ring has no part in it. -/
theorem Coherent.breakSequence (h : e.Coherent P on) : e.breakSequence.Coherent P on :=
  ⟨h.cursor, h.node, h.point⟩

theorem Coherent.invalidate (h : e.Coherent P on) : e.invalidate.Coherent P on :=
  coherent_of_no_selection h.cursor.invalidate rfl h.point

theorem Coherent.setPoint (h : e.Coherent P on) (o : Nat) : (e.setPoint o).Coherent P on :=
  coherent_of_no_selection h.cursor.invalidate rfl (e.buffer.valid_setPoint o)

theorem current_fst (P : Parser) (e : Engine) :
    (e.current P).1 = (e.current P).2.cursor.current := by
  unfold current
  split
  · rename_i r hr
    exact (Option.filter_eq_some_iff.1 hr).1.symm
  · dsimp only
    split <;> rfl

theorem Coherent.current (h : e.Coherent P on) : (e.current P).2.Coherent P on := by
  unfold Engine.current
  split
  · exact h
  · dsimp only
    split
    · exact h.invalidate
    · refine ⟨h.cursor.select _, fun r hr => ?_, h.point⟩
      exact ⟨_, (e.tree P).has_topmost _, (Option.some.inj hr).symm⟩

theorem Coherent.focus (h : e.Coherent P on) : (e.focus P).2.Coherent P on := by
  rw [focus_eq]
  exact h.current

/-! ## Selecting -/

/-- Selecting a node needs no more than a coherent cursor, and brings point to the node. -/
theorem select_coherent (hP : P.WellFormed) (hc : e.cursor.Coherent on) {a : Address}
    (ha : (e.tree P).has a = true) :
    (e.select (.capture (e.tree P) a e.buffer.revision)).Coherent P on ∧
      (e.select (.capture (e.tree P) a e.buffer.revision)).Landed := by
  refine ⟨⟨hc.select _, fun r hr => ?_, e.buffer.valid_setPoint _⟩, fun r hr => ?_⟩
  · exact ⟨a, ha, (Option.some.inj hr).symm⟩
  · obtain rfl := Option.some.inj hr
    exact Text.floor_of_isBoundary ((hP _ _).fits.start a)

/-- Settling makes an engine coherent whose selected node may be out of date. -/
theorem settle_coherent (hP : P.WellFormed) (hc : e.cursor.Coherent on) (o : Nat)
    (size : Option Nat) : (e.settle P o size).Coherent P on ∧ (e.settle P o size).Landed := by
  unfold settle
  dsimp only
  split
  · refine ⟨coherent_of_no_selection hc.invalidate rfl (e.buffer.valid_setPoint o), ?_⟩
    intro r hr
    simp [Engine.invalidate, Cursor.invalidate] at hr
  · refine select_coherent (e := { e with buffer := e.buffer.setPoint o }) hP hc ?_
    refine Tree.has_getD (fun a ha => ?_) (Tree.has_topmost _ _)
    obtain ⟨n, -, hn⟩ := Option.bind_eq_some_iff.1 ha
    exact Tree.has_spanning hn

/-! ## Movements and predicates -/

theorem Coherent.move (hP : P.WellFormed) (h : e.Coherent P on) (m : Motion) (count : Nat) :
    (e.move P m count).2.Coherent P on ∧
      ((e.move P m count).1.isNone = false → (e.move P m count).2.Landed) := by
  have hf := h.breakSequence.focus
  unfold Engine.move
  split
  · rename_i e₁ he
    rw [he] at hf
    exact ⟨hf, fun hn => by simp [Move.isNone] at hn⟩
  · rename_i a e₁ he
    have ht : e₁.tree P = e.tree P := by
      have := focus_tree (P := P) e.breakSequence
      rw [he] at this
      exact this
    have ha : (e₁.tree P).has a = true := by
      rw [ht]
      exact has_of_focus (e := e.breakSequence) (by rw [he])
    rw [he] at hf
    dsimp only
    split
    · exact ⟨hf, fun hn => by simp [Move.isNone] at hn⟩
    · obtain ⟨hs, hl⟩ := select_coherent hP hf.cursor (Tree.has_stepsFrom ha m count)
      exact ⟨hs, fun _ => hl⟩

theorem Coherent.ask (h : e.Coherent P on) (p : Predicate) : (e.ask P p).2.Coherent P on := by
  have hf := h.focus
  unfold Engine.ask
  split
  · rename_i e₁ he
    rwa [he] at hf
  · rename_i a e₁ he
    rwa [he] at hf

theorem relocates_yank (count : Nat) : (e.yank P count).1.relocates = false := by
  unfold Engine.yank
  split
  · rfl
  · dsimp only
    split <;> rfl

theorem Coherent.yank (h : e.Coherent P on) (count : Nat) : (e.yank P count).2.Coherent P on := by
  have hf := h.focus
  unfold Engine.yank
  split
  · rename_i e₁ he
    rwa [he] at hf
  · rename_i a e₁ he
    rw [he] at hf
    dsimp only
    split
    · exact hf
    · exact ⟨hf.cursor, hf.node, hf.point⟩

/-! ## Edits -/

/-- The action leaves a coherent engine behind, unless it ends in a fault, and after an answer that
satisfies `lands` point is at the start of the selected node. -/
def Keeps {α : Type} (P : Parser) (on : Bool) (lands : α → Bool) (x : Action Engine α) : Prop :=
  ∀ e, e.Coherent P on → ∀ res e', x.perform e = (res, e') → (∀ g, res ≠ .error (.fault g)) →
    e'.Coherent P on ∧ ∀ a, res = .ok a → lands a = true → e'.Landed

theorem nothing_relocates {e : Engine} (o : EditOutcome)
    (h : (.ok .nothing : Except Failure EditOutcome) = .ok o) (hr : o.relocates = true) :
    e.Landed := by
  obtain rfl := Except.ok.inj h
  simp [EditOutcome.relocates] at hr

theorem keeps_applyExternal (edit : Edit) : Keeps P on (fun _ => false) (applyExternal edit) := by
  intro e h res e' hp hf
  refine ⟨?_, fun _ _ hl => by simp at hl⟩
  have hv := Buffer.valid_apply h.point edit
  rw [perform_applyExternal] at hp
  cases hb : (Buffer.apply edit).perform e.buffer with
  | mk r b =>
    rw [hb] at hv hp
    cases r with
    | error f =>
      obtain ⟨-, rfl⟩ := Prod.mk.inj hp
      exact h
    | ok r =>
      obtain ⟨-, rfl⟩ := Prod.mk.inj hp
      exact coherent_of_no_selection h.cursor.invalidate rfl hv

theorem keeps_deleteSpan (hP : P.WellFormed) (d : Direction) (span : Span)
    (neighbour : Option Span) (clean : Bool) :
    Keeps P on EditOutcome.relocates (deleteSpan P d span neighbour clean) := by
  intro e h res e' hp hf
  cases hs : e.buffer.text.slice? span.start span.stop with
  | none =>
    rw [deleteSpan_of_none hs] at hp
    obtain ⟨rfl, rfl⟩ := Prod.mk.inj hp
    exact ⟨h, fun a ha => by simp at ha⟩
  | some y =>
    obtain ⟨x, z, ht, hx, hy⟩ := Text.slice?_eq_some_iff.1 hs
    have hspan : span = ⟨x.size, (x ++ y).size⟩ := by rw [hx, hy]
    rw [hspan] at hp
    -- Once the text has changed, the deletion either ends the run or gets to settle.
    rcases deleteSpan_cases ht d neighbour clean with ⟨s, hr⟩ | ⟨b, t, t', -, -, hr⟩
    · rw [hr] at hp
      obtain ⟨rfl, -⟩ := Prod.mk.inj hp
      exact (hf _ rfl).elim
    · rw [hr] at hp
      obtain ⟨-, rfl⟩ := Prod.mk.inj hp
      obtain ⟨hc, hl⟩ := settle_coherent (P := P)
        (e := { e with buffer := b, killRing := e.killRing.kill y d }) hP h.cursor
        (t'.getD (min b.point x.size)) (neighbour.map Span.size)
      exact ⟨hc, fun _ _ _ => hl⟩

theorem keeps_deleteForward (hP : P.WellFormed) (count : Nat) (keep : Bool) :
    Keeps P on EditOutcome.relocates (deleteForward P count keep) := by
  intro e h res e' hp hf
  rw [perform_deleteForward] at hp
  cases ha : (e.focus P).1 with
  | none =>
    rw [ha] at hp
    obtain ⟨rfl, rfl⟩ := Prod.mk.inj hp
    exact ⟨h.focus, nothing_relocates⟩
  | some a =>
    rw [ha] at hp
    exact keeps_deleteSpan hP _ _ _ _ _ h.focus res e' hp hf

theorem keeps_deleteBackward (hP : P.WellFormed) (count : Nat) :
    Keeps P on EditOutcome.relocates (deleteBackward P count) := by
  intro e h res e' hp hf
  rw [perform_deleteBackward] at hp
  cases ha : (e.focus P).1 with
  | none =>
    rw [ha] at hp
    obtain ⟨rfl, rfl⟩ := Prod.mk.inj hp
    exact ⟨h.focus, nothing_relocates⟩
  | some a =>
    rw [ha] at hp
    exact keeps_deleteSpan hP _ _ _ _ _ h.focus res e' hp hf

/-- The selected node of a coherent engine lies between two boundaries, so nothing of a paste next
to it is rejected. -/
theorem keeps_paste (hP : P.WellFormed) (count : Nat) (placement : Placement) :
    Keeps P on EditOutcome.relocates (paste P count placement) := by
  intro e h res e' hp hf
  rcases paste_cases P e count placement with hn | hn | ⟨entry, r, htop, hr, hn⟩
  · rw [hn] at hp
    obtain ⟨rfl, rfl⟩ := Prod.mk.inj hp
    exact ⟨h, nothing_relocates⟩
  · rw [hn] at hp
    obtain ⟨rfl, rfl⟩ := Prod.mk.inj hp
    exact ⟨h.current, nothing_relocates⟩
  · rw [perform_paste htop hr hn] at hp
    dsimp only at hp
    cases hb : (pasteText entry (max count 1) placement r.span).perform e.buffer with
    | mk out b =>
      rw [hb] at hp
      cases out with
      | error f =>
        -- The text may have changed by now, so this has to be a fault.
        obtain ⟨rfl, rfl⟩ := Prod.mk.inj hp
        rw [current_fst] at hr
        obtain ⟨a, -, ha⟩ := h.current.node r hr
        rw [current_tree] at ha
        have hw := hP e.buffer.revision e.buffer.text
        obtain ⟨x, y, z, ht, hs, hy⟩ := Text.exists_parts (hw.fits.start a) (hw.fits.stop a)
          (hw.ordered.spanAt_le a)
        have hspan : r.span = (P e.buffer.revision e.buffer.text).spanAt a := by
          rw [ha]
          rfl
        obtain ⟨g, rfl⟩ := pasteText_eq_error ht (hspan ▸ hs) (hspan ▸ hy) hb
        exact (hf g rfl).elim
      | ok span =>
        obtain ⟨-, rfl⟩ := Prod.mk.inj hp
        obtain ⟨hc, hl⟩ := settle_coherent (P := P)
          (e := { (e.current P).2.breakSequence with buffer := b }) hP h.current.cursor
          span.start none
        exact ⟨hc, fun _ _ _ => hl⟩

/-! ## Commands -/

/-- An answer passed on under another name is kept as well as before. -/
theorem Keeps.map {α β : Type} {lands : α → Bool} {lands' : β → Bool} {x : Action Engine α}
    (hx : Keeps P on lands x) (f : α → β) (hl : ∀ a, lands' (f a) = lands a) :
    Keeps P on lands' (do return f (← x)) := by
  intro e h res e' hp hf
  cases hr : x.perform e with
  | mk r e₁ =>
    cases r with
    | error g =>
      rw [Action.perform_bind_of_error hr] at hp
      obtain ⟨rfl, rfl⟩ := Prod.mk.inj hp
      obtain ⟨hc, -⟩ := hx e h _ _ hr fun g' hg => hf g' (by cases hg; rfl)
      exact ⟨hc, fun _ ha => by simp at ha⟩
    | ok a =>
      rw [Action.perform_bind_of_ok hr] at hp
      obtain ⟨rfl, rfl⟩ := Prod.mk.inj hp
      obtain ⟨hc, hland⟩ := hx e h _ _ hr (by simp)
      refine ⟨hc, fun b hb hb' => hland a rfl ?_⟩
      rw [← hl, ← hb']
      exact congrArg lands' (Except.ok.inj hb)

/-- An action that always succeeds keeps what its next state does. -/
theorem keeps_of_ok {α : Type} {lands : α → Bool} {x : Action Engine α} {f : Engine → α × Engine}
    (hx : ∀ e, x.perform e = (.ok (f e).1, (f e).2))
    (h : ∀ e, e.Coherent P on → (f e).2.Coherent P on ∧
      (lands (f e).1 = true → (f e).2.Landed)) : Keeps P on lands x := by
  intro e he res e' hp hf
  rw [hx] at hp
  obtain ⟨rfl, rfl⟩ := Prod.mk.inj hp
  obtain ⟨hc, hl⟩ := h e he
  exact ⟨hc, fun a ha => Except.ok.inj ha ▸ hl⟩

theorem keeps_execute (hP : P.WellFormed) (c : Command) :
    Keeps P on CommandOutcome.relocates (execute P c) := by
  cases c with
  | move m n =>
    refine keeps_of_ok (f := fun e => (.moved (e.move P m n).1, (e.move P m n).2)) (fun _ => rfl) ?_
    intro e h
    obtain ⟨hc, hl⟩ := h.move hP m n
    exact ⟨hc, fun hr => hl (by simpa [CommandOutcome.relocates] using hr)⟩
  | delete n =>
    intro e h
    -- The settings of the engine decide whether a blank line stays.
    exact (keeps_deleteForward hP n e.keepEmptyLines).map CommandOutcome.edited (fun _ => rfl) e h
  | deleteKeep n =>
    exact (keeps_deleteForward hP n true).map CommandOutcome.edited fun _ => rfl
  | deleteBack n => exact (keeps_deleteBackward hP n).map CommandOutcome.edited fun _ => rfl
  | yank n =>
    refine keeps_of_ok (f := fun e => (.edited (e.yank P n).1, (e.yank P n).2)) (fun _ => rfl) ?_
    intro e h
    exact ⟨h.yank n, fun hr => absurd hr (by simp [CommandOutcome.relocates, relocates_yank])⟩
  | paste n p => exact (keeps_paste hP n p).map CommandOutcome.edited fun _ => rfl
  | query p =>
    refine keeps_of_ok (f := fun e => (.answered (e.ask P p).1, (e.ask P p).2)) (fun _ => rfl) ?_
    exact fun e h => ⟨h.ask p, fun hr => by simp [CommandOutcome.relocates] at hr⟩
  | goto o =>
    refine keeps_of_ok (f := fun e => (.jumped (e.setPoint o).buffer.point, e.setPoint o))
      (fun _ => rfl) ?_
    exact fun e h => ⟨h.setPoint o, fun hr => by simp [CommandOutcome.relocates] at hr⟩

end Engine

end TreeEdit
