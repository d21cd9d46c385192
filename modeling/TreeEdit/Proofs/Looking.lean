import Mathlib.Data.List.Forall2
import TreeEdit.Proofs.Engine.Highlight
import TreeEdit.Session
/-!
# Looking at the selection changes nothing

Asking for the selected node may select one, so a look leaves another engine behind. But an
operation that needs the selection looks for it first, and finds the same (`Looks`). One that does
not need it leaves it alone or drops it.

`LookedAt` relates an engine to the one that has been looked at. Every operation answers the same
on both, and leaves two engines behind that are related again (`Unaware`, `LookedAt.step`). So looks
can be put anywhere into a row of operations (`looks_unobservable`): only the highlighter tells, and
a selection that is made early.
-/

namespace TreeEdit

namespace Engine

variable {P : Parser} {α β : Type} {e e' : Engine}

/-! ## Looking twice -/

theorem current_snd (P : Parser) (e : Engine) :
    (e.current P).2 = { e with cursor := (e.current P).2.cursor } := by
  unfold current
  split
  · rfl
  · dsimp only
    split <;> rfl

/-- A second look finds what the first one found and changes nothing. -/
theorem current_current (P : Parser) (e : Engine) : (e.current P).2.current P = e.current P := by
  cases hc : e.cursor.currentAt e.buffer.revision with
  | some r => rw [current_of_currentAt hc, current_of_currentAt hc]
  | none =>
    rw [current_of_no_currentAt hc]
    dsimp only
    by_cases hn : ((e.tree P).spanAt ((e.tree P).topmost e.buffer.point)).isEmpty = true
    · rw [if_pos hn, current_of_no_currentAt (e := e.invalidate) rfl]
      exact if_pos hn
    · rw [if_neg hn]
      refine current_of_currentAt ?_
      simp [Cursor.currentAt, Cursor.select, NodeRef.capture]

/-- What is done first is a look: the answer and the next engine do not depend on whether someone
has looked before. -/
def Looks (P : Parser) (f : Engine → α × Engine) : Prop := ∀ e, f (e.current P).2 = f e

theorem looks_current (P : Parser) : Looks P (current P) := current_current P

theorem looks_focus (P : Parser) : Looks P (focus P) := by
  intro e
  rw [focus_eq, focus_eq, current_current, current_tree, current_buffer]

theorem looks_move (P : Parser) (m : Motion) (n : Nat) : Looks P (move P m n) := by
  intro e
  unfold move
  rw [focus_breakSequence, focus_breakSequence, looks_focus]

theorem looks_ask (P : Parser) (p : Predicate) : Looks P (ask P p) := by
  intro e
  unfold ask
  rw [looks_focus]

theorem looks_yank (P : Parser) (n : Nat) : Looks P (yank P n) := by
  intro e
  unfold yank
  rw [looks_focus]

theorem looks_deleteForward (P : Parser) (n : Nat) (keep : Bool) :
    Looks P (deleteForward P n keep).perform := by
  intro e
  rw [perform_deleteForward, perform_deleteForward, looks_focus, current_tree]

theorem looks_deleteBackward (P : Parser) (n : Nat) : Looks P (deleteBackward P n).perform := by
  intro e
  rw [perform_deleteBackward, perform_deleteBackward, looks_focus, current_tree]

/-! ## An engine that has been looked at -/

/-- The second engine is the first one, looked at or not, with any highlighter. -/
def LookedAt (P : Parser) (e e' : Engine) : Prop :=
  ∃ h, e' = e.showOn h ∨ e' = (e.current P).2.showOn h

namespace LookedAt

theorem refl (P : Parser) (e : Engine) : LookedAt P e e := ⟨e.cursor.highlighter, .inl rfl⟩

/-- Only the cursor may be another. -/
theorem eq (h : LookedAt P e e') : e' = { e with cursor := e'.cursor } := by
  obtain ⟨t, rfl | rfl⟩ := h
  · rfl
  · rw [current_snd]
    rfl

theorem buffer (h : LookedAt P e e') : e'.buffer = e.buffer := by rw [h.eq]

theorem killRing (h : LookedAt P e e') : e'.killRing = e.killRing := by rw [h.eq]

theorem keepEmptyLines (h : LookedAt P e e') : e'.keepEmptyLines = e.keepEmptyLines := by rw [h.eq]

theorem invalidate (h : LookedAt P e e') : LookedAt P e.invalidate e'.invalidate := by
  rw [h.eq]
  exact ⟨_, .inl rfl⟩

theorem setPoint (h : LookedAt P e e') (o : Nat) : LookedAt P (e.setPoint o) (e'.setPoint o) := by
  rw [h.eq]
  exact ⟨_, .inl rfl⟩

/-- One more look makes no difference. -/
theorem look (h : LookedAt P e e') : LookedAt P e (e'.current P).2 := by
  obtain ⟨t, rfl | rfl⟩ := h
  · obtain ⟨t', ht⟩ := blind_current P e t
    exact ⟨t', .inr (by rw [ht])⟩
  · obtain ⟨t', ht⟩ := blind_current P (e.current P).2 t
    exact ⟨t', .inr (by rw [ht, current_current])⟩

end LookedAt

/-! ## Operations of the engine -/

/-- On an engine that has been looked at the answer is the same, and the engine left behind is the
same or one that has been looked at. -/
def Unaware (P : Parser) (f : Engine → α × Engine) : Prop :=
  ∀ ⦃e e'⦄, LookedAt P e e' → (f e').1 = (f e).1 ∧ LookedAt P (f e).2 (f e').2

/-- It is enough that a look right before makes no difference. -/
theorem LookedAt.of_blind (h : LookedAt P e e') {f : Engine → α × Engine} (hb : Blind f)
    (hl : f (e.current P).2 = f e) : (f e').1 = (f e).1 ∧ LookedAt P (f e).2 (f e').2 := by
  obtain ⟨t, rfl | rfl⟩ := h
  · obtain ⟨t', ht⟩ := hb e t
    rw [ht]
    exact ⟨rfl, t', .inl rfl⟩
  · obtain ⟨t', ht⟩ := hb (e.current P).2 t
    rw [ht, hl]
    exact ⟨rfl, t', .inl rfl⟩

theorem Looks.unaware {f : Engine → α × Engine} (hl : Looks P f) (hb : Blind f) : Unaware P f :=
  fun e _ h => h.of_blind hb (hl e)

theorem Unaware.map {f : Engine → α × Engine} (hf : Unaware P f) (g : α → β) :
    Unaware P fun e => (g (f e).1, (f e).2) :=
  fun _ _ h => ⟨congrArg g (hf h).1, (hf h).2⟩

/-- An answer may be passed on in another form. -/
theorem Unaware.return {x : Action Engine α} (hx : Unaware P x.perform) (g : α → β) :
    Unaware P (do return g (← x) : Action Engine β).perform := by
  intro e e' h
  rw [Action.perform_map, Action.perform_map]
  exact hx.map (Except.map g) h

theorem unaware_current (P : Parser) : Unaware P (current P) :=
  (looks_current P).unaware (blind_current P)

theorem unaware_move (P : Parser) (m : Motion) (n : Nat) : Unaware P (move P m n) :=
  (looks_move P m n).unaware (blind_move P m n)

theorem unaware_ask (P : Parser) (p : Predicate) : Unaware P (ask P p) :=
  (looks_ask P p).unaware (blind_ask P p)

theorem unaware_yank (P : Parser) (n : Nat) : Unaware P (yank P n) :=
  (looks_yank P n).unaware (blind_yank P n)

theorem unaware_deleteForward (P : Parser) (n : Nat) (keep : Bool) :
    Unaware P (deleteForward P n keep).perform :=
  (looks_deleteForward P n keep).unaware (blind_deleteForward P n keep)

theorem unaware_deleteBackward (P : Parser) (n : Nat) : Unaware P (deleteBackward P n).perform :=
  (looks_deleteBackward P n).unaware (blind_deleteBackward P n)

theorem unaware_paste (P : Parser) (n : Nat) (p : Placement) : Unaware P (paste P n p).perform := by
  intro e e' h
  cases htop : e.killRing.top? with
  | none =>
    -- With nothing to paste nobody looks, so a selection that was made early stays.
    have htop' : e'.killRing.top? = none := by rw [h.killRing, htop]
    rw [paste_of_empty htop, paste_of_empty htop']
    exact ⟨rfl, h⟩
  | some entry =>
    have htop' : (e.current P).2.killRing.top? = some entry := by rw [current_killRing, htop]
    refine h.of_blind (blind_paste P n p) ?_
    rw [paste_of_entry htop, paste_of_entry htop', current_current, current_tree, current_buffer]

/-- A rejected edit leaves the selection, and any other drops it. -/
theorem unaware_applyExternal (P : Parser) (edit : Edit) :
    Unaware P (applyExternal edit).perform := by
  intro e e' h
  rw [perform_applyExternal, perform_applyExternal, h.buffer]
  cases (Buffer.apply edit).perform e.buffer with
  | mk r b =>
    cases r with
    | error f => exact ⟨rfl, h⟩
    | ok r =>
      rw [h.eq]
      exact ⟨rfl, _, .inl rfl⟩

theorem unaware_execute (P : Parser) (c : Command) : Unaware P (execute P c).perform := by
  cases c with
  | move m n => exact (unaware_move P m n).map fun d => Except.ok (CommandOutcome.moved d)
  | delete n =>
    intro e e' h
    have hx := (unaware_deleteForward P n e.keepEmptyLines).return CommandOutcome.edited h
    unfold execute
    rw [Action.perform_bind_of_ok (Action.perform_get e),
      Action.perform_bind_of_ok (Action.perform_get e'), h.keepEmptyLines]
    exact hx
  | deleteKeep n => exact (unaware_deleteForward P n true).return CommandOutcome.edited
  | deleteBack n => exact (unaware_deleteBackward P n).return CommandOutcome.edited
  | yank n => exact (unaware_yank P n).map fun o => Except.ok (CommandOutcome.edited o)
  | paste n p => exact (unaware_paste P n p).return CommandOutcome.edited
  | query p => exact (unaware_ask P p).map fun b => Except.ok (CommandOutcome.answered b)
  | goto o =>
    intro e e' h
    have hp : (e'.setPoint o).buffer.point = (e.setPoint o).buffer.point := by
      rw [(h.setPoint o).buffer]
    exact ⟨congrArg (fun n => Except.ok (CommandOutcome.jumped n)) hp, h.setPoint o⟩

theorem LookedAt.handle (h : LookedAt P e e') (m : ModeMachine) (event : ModeEvent) :
    LookedAt P (m.handle P event e).2 (m.handle P event e').2 := by
  have he : LookedAt P (if event = .externalEdit then e.invalidate else e)
      (if event = .externalEdit then e'.invalidate else e') := by
    split
    · exact h.invalidate
    · exact h
  unfold ModeMachine.handle
  dsimp only
  split
  · exact (unaware_current P he).2
  · split
    · exact he.invalidate
    · exact he

end Engine

namespace Session

variable {P : Parser} {s s' : Session}

/-- The second session is the first one with an engine that has been looked at. -/
structure LookedAt (P : Parser) (s s' : Session) : Prop where
  engine : Engine.LookedAt P s.engine s'.engine
  modes : s'.modes = s.modes

theorem LookedAt.refl (P : Parser) (s : Session) : LookedAt P s s := ⟨.refl P s.engine, rfl⟩

/-- What is done to the engine alone relates the sessions if it relates the engines. -/
theorem LookedAt.onEngine {α : Type} (h : LookedAt P s s') {f : Engine → α × Engine}
    (hf : Engine.Unaware P f) (reply : α → Except OperationError Reply) :
    reply (f s'.engine).1 = reply (f s.engine).1 ∧
      LookedAt P { s with engine := (f s.engine).2 } { s' with engine := (f s'.engine).2 } :=
  ⟨congrArg reply (hf h.engine).1, (hf h.engine).2, h.modes⟩

theorem LookedAt.act {α : Type} (h : LookedAt P s s') {x : Action Engine α}
    (hx : Engine.Unaware P x.perform) (reply : α → Reply) :
    (s'.act x reply).1 = (s.act x reply).1 ∧ LookedAt P (s.act x reply).2 (s'.act x reply).2 :=
  h.onEngine hx fun r => (r.map reply).mapError .failed

/-- One operation has the same answer in both sessions, and relates what it makes of them. -/
theorem LookedAt.step (h : LookedAt P s s') (o : Operation) :
    (s'.step P o).1 = (s.step P o).1 ∧ LookedAt P (s.step P o).2 (s'.step P o).2 := by
  cases o with
  | command t =>
    cases hc : Command.parse t with
    | error err =>
      simp only [Session.step, hc]
      exact ⟨trivial, h⟩
    | ok c =>
      simp only [Session.step, hc]
      exact h.act (Engine.unaware_execute P c) .command
  | setPoint o => exact ⟨rfl, h.engine.setPoint o, h.modes⟩
  | current => exact h.onEngine (Engine.unaware_current P) fun r => .ok (.node r)
  | invalidate => exact ⟨rfl, h.engine.invalidate, h.modes⟩
  | edit e => exact h.act (Engine.unaware_applyExternal P e) .applied
  | move m n => exact h.onEngine (Engine.unaware_move P m n) fun d => .ok (.moved d)
  | ask p => exact h.onEngine (Engine.unaware_ask P p) fun b => .ok (.answered b)
  | deleteForward n keep => exact h.act (Engine.unaware_deleteForward P n keep) .edited
  | deleteBackward n => exact h.act (Engine.unaware_deleteBackward P n) .edited
  | yank n => exact h.onEngine (Engine.unaware_yank P n) fun o => .ok (.edited o)
  | paste n p => exact h.act (Engine.unaware_paste P n p) .edited
  | handle event =>
    simp only [Session.step, h.modes]
    exact ⟨rfl, h.engine.handle s.modes event, rfl⟩

/-! ## Looks between operations -/

/-- What happens to a session. -/
inductive Event where
  /-- Someone asks for the selected node, and what comes of it is not noted. -/
  | look
  | operation (o : Operation)
deriving DecidableEq, Repr

/-- The row of events ends with this answer. -/
def ends : Except OperationError Reply → Bool
  | .error err => err.isFault
  | .ok _ => false

/-- The answers to the operations up to the first fault, each with the session it left behind. -/
def transcript (P : Parser) (s : Session) :
    List Event → List (Except OperationError Reply × Session)
  | [] => []
  | .look :: events => transcript P (s.step P .current).2 events
  | .operation o :: events =>
    let x := s.step P o
    x :: if ends x.1 then [] else transcript P x.2 events

/-- Two entries of a transcript that differ in the highlighter and in the moment of the selection
only: the second cursor is the first one, or what the first one is after a look. -/
structure Indistinct (P : Parser) (x y : Except OperationError Reply × Session) : Prop where
  answer : y.1 = x.1
  buffer : y.2.engine.buffer = x.2.engine.buffer
  killRing : y.2.engine.killRing = x.2.engine.killRing
  keepEmptyLines : y.2.engine.keepEmptyLines = x.2.engine.keepEmptyLines
  modes : y.2.modes = x.2.modes
  cursor : ∃ h, y.2.engine.cursor = { x.2.engine.cursor with highlighter := h } ∨
    y.2.engine.cursor = { (x.2.engine.current P).2.cursor with highlighter := h }

theorem LookedAt.indistinct (h : LookedAt P s s') {r r' : Except OperationError Reply}
    (hr : r' = r) : Indistinct P (r, s) (r', s') where
  answer := hr
  buffer := h.engine.buffer
  killRing := h.engine.killRing
  keepEmptyLines := h.engine.keepEmptyLines
  modes := h.modes
  cursor := by
    obtain ⟨t, he | he⟩ := h.engine
    · exact ⟨t, .inl (congrArg Engine.cursor he)⟩
    · exact ⟨t, .inr (congrArg Engine.cursor he)⟩

/-- A look moves on in the second session alone, and an operation in both. -/
theorem LookedAt.transcript (h : LookedAt P s s') (events : List Event) :
    List.Forall₂ (Indistinct P) (s.transcript P (events.filter (· ≠ .look)))
      (s'.transcript P events) := by
  induction events generalizing s s' with
  | nil => exact .nil
  | cons event events ih =>
    cases event with
    | look =>
      rw [List.filter_cons_of_neg (by simp)]
      exact ih ⟨h.engine.look, h.modes⟩
    | operation o =>
      obtain ⟨hr, hs⟩ := h.step o
      rw [List.filter_cons_of_pos (by simp)]
      refine .cons (hs.indistinct hr) ?_
      rw [hr]
      by_cases hf : ends (s.step P o).1 = true
      · rw [if_pos hf, if_pos hf]
        exact .nil
      · rw [if_neg hf, if_neg hf]
        exact ih hs

/-- Looks that are put between the operations, any number of them and anywhere, change no answer
and, after every operation, no text, no point, no revision and no kill ring. -/
theorem looks_unobservable (P : Parser) (s : Session) (events : List Event) :
    List.Forall₂ (Indistinct P) (s.transcript P (events.filter (· ≠ .look)))
      (s.transcript P events) :=
  (LookedAt.refl P s).transcript events

end Session

end TreeEdit
