import TreeEdit.Proofs.Engine.Highlight
import TreeEdit.Proofs.Engine.Sequence
import TreeEdit.Proofs.Reachable
/-!
# The selection belongs to structural mode

Operations that look for the selected node select one if there is none. If they are used in
structural mode only, nothing is selected in any other mode, whatever the transitions are:
`selection_structural` says this of every proper run of a session.

Two facts carry it. Every operation changes the cursor by selecting and dropping nodes and in
no other way (`Steers`), so the region and the highlight follow the selected node. And what
leads out of structural mode drops the selection, while the operations that are allowed in
other modes do not make one (`Session.Idle`).
-/

namespace TreeEdit

/-! ## What happens to a cursor -/

/-- A row of selections and losses of them leads from one cursor to the other. -/
inductive Cursor.Turns (c : Cursor) : Cursor → Prop
  | refl : Turns c c
  | select {c' : Cursor} (r : NodeRef) : Turns c c' → Turns c (c'.select r)
  | invalidate {c' : Cursor} : Turns c c' → Turns c c'.invalidate

theorem Cursor.Turns.trans {c c₁ c₂ : Cursor} (h₁ : c.Turns c₁) (h₂ : c₁.Turns c₂) :
    c.Turns c₂ := by
  induction h₂ with
  | refl => exact h₁
  | select r _ ih => exact .select r ih
  | invalidate _ ih => exact .invalidate ih

theorem Cursor.Coherent.turns {on : Bool} {c c' : Cursor} (hc : c.Coherent on) (h : c.Turns c') :
    c'.Coherent on := by
  induction h with
  | refl => exact hc
  | select r _ ih => exact ih.select r
  | invalidate _ ih => exact ih.invalidate

theorem Cursor.Turns.silent {c c' : Cursor} (h : c.Turns c') (hc : c.highlighter = .silent) :
    c'.highlighter = .silent := by
  induction h with
  | refl => exact hc
  | select r _ ih =>
    rw [Cursor.select, ih]
    rfl
  | invalidate _ ih =>
    rw [Cursor.invalidate, ih]
    exact ite_self _

theorem Cursor.Turns.region {g : Highlighter} {c : Cursor} (h : (Cursor.empty g).Turns c) :
    c.region = c.current.map NodeRef.span := by
  have hg : (Cursor.empty g).Coherent false := Cursor.coherent_empty (by simp)
  exact (hg.turns h).region

/-- A highlighter that was not told anything before shows nothing once the selection is lost. -/
theorem Cursor.Turns.cleared {g : Highlighter} {c : Cursor} (h : (Cursor.empty g).Turns c)
    (hg : g.events = []) (hc : c.current = none) :
    ∀ event ∈ c.highlighter.events.getLast?, event = .clear := by
  cases g with
  | silent =>
    rw [h.silent rfl]
    simp [Highlighter.events]
  | recorder es =>
    obtain rfl : es = [] := hg
    obtain ⟨es, he, hs⟩ := ((Cursor.coherent_empty fun _ => rfl).turns h).highlight rfl
    rw [h.region, hc] at hs
    intro event hev
    rw [he, Highlighter.events] at hev
    cases event with
    | clear => rfl
    | set span => simp [shown, Option.mem_def.1 hev] at hs

namespace Engine

variable {P : Parser} {e : Engine} {α β : Type}

/-- Whatever the engine, the cursor is changed by selections and losses of them only. -/
def Steers (f : Engine → α × Engine) : Prop :=
  ∀ e : Engine, e.cursor.Turns (f e).2.cursor

theorem steers_current (P : Parser) : Steers (current P) := by
  intro e
  cases h : e.cursor.currentAt e.buffer.revision with
  | some r =>
    rw [current_of_currentAt h]
    exact .refl
  | none =>
    rw [current_of_no_currentAt h]
    dsimp only
    split
    · exact .invalidate .refl
    · exact .select _ .refl

theorem steers_focus (P : Parser) : Steers (focus P) := by
  intro e
  rw [focus_eq]
  exact steers_current P e

theorem turns_settle (P : Parser) (e : Engine) (o : Nat) (size : Option Nat) :
    e.cursor.Turns (e.settle P o size).cursor := by
  rw [settle_eq]
  dsimp only
  split
  · exact .invalidate .refl
  · exact .select _ .refl

theorem steers_move (P : Parser) (m : Motion) (n : Nat) : Steers (move P m n) := by
  intro e
  cases h : (e.focus P).1 with
  | none =>
    rw [move_of_no_focus h]
    exact steers_focus P e
  | some a =>
    rw [move_of_focus h]
    split
    · exact steers_focus P e
    · exact .select _ (steers_focus P e)

theorem steers_ask (P : Parser) (p : Predicate) : Steers (ask P p) := by
  intro e
  rw [ask_snd]
  exact steers_focus P e

theorem steers_yank (P : Parser) (n : Nat) : Steers (yank P n) := by
  intro e
  rw [yank_eq]
  split
  · exact steers_focus P e
  · dsimp only
    split <;> exact steers_focus P e

theorem steers_pure (a : α) : Steers (pure a : Action Engine α).perform := fun _ => .refl

theorem steers_bind {x : Action Engine α} {f : α → Action Engine β} (hx : Steers x.perform)
    (hf : ∀ a, Steers (f a).perform) : Steers (x >>= f).perform := by
  intro e
  have hx := hx e
  rw [Action.perform_bind]
  cases hp : x.perform e with
  | mk r e₁ =>
    rw [hp] at hx
    cases r with
    | error g => exact hx
    | ok a => exact hx.trans (hf a e₁)

theorem steers_onBuffer (x : Action Buffer α) : Steers (onBuffer x).perform := fun _ => .refl

theorem steers_modify {f : Engine → Engine} (hf : ∀ e : Engine, e.cursor.Turns (f e).cursor) :
    Steers (modify f : Action Engine Unit).perform := hf

theorem steers_deleteSpan (P : Parser) (d : Direction) (span : Span) (neighbour : Option Span)
    (clean : Bool) : Steers (deleteSpan P d span neighbour clean).perform := by
  unfold deleteSpan
  refine steers_bind (steers_onBuffer _) fun removed => ?_
  refine steers_bind (steers_modify fun _ => .refl) fun _ => ?_
  refine steers_bind (steers_onBuffer _) fun tracked => ?_
  dsimp only
  split
  · refine steers_bind (steers_onBuffer _) fun tracked => ?_
    exact steers_bind (steers_modify fun e => turns_settle P e _ _) fun _ => steers_pure _
  · refine steers_bind (steers_pure _) fun tracked => ?_
    exact steers_bind (steers_modify fun e => turns_settle P e _ _) fun _ => steers_pure _

theorem steers_deleteForward (P : Parser) (n : Nat) (keep : Bool) :
    Steers (deleteForward P n keep).perform := by
  intro e
  rw [perform_deleteForward]
  split
  · exact steers_focus P e
  · exact (steers_focus P e).trans (steers_deleteSpan P _ _ _ _ _)

theorem steers_deleteBackward (P : Parser) (n : Nat) : Steers (deleteBackward P n).perform := by
  intro e
  rw [perform_deleteBackward]
  split
  · exact steers_focus P e
  · exact (steers_focus P e).trans (steers_deleteSpan P _ _ _ _ _)

theorem steers_pasteBeside (P : Parser) (entry : Text) (n : Nat) (p : Placement) (node : Span) :
    Steers (pasteBeside P entry n p node).perform := by
  unfold pasteBeside
  refine steers_bind (steers_modify fun _ => .refl) fun _ => ?_
  refine steers_bind (steers_onBuffer _) fun span => ?_
  exact steers_bind (steers_modify fun e => turns_settle P e _ _) fun _ => steers_pure _

theorem steers_paste (P : Parser) (n : Nat) (p : Placement) : Steers (paste P n p).perform := by
  intro e
  cases h : e.killRing.top? with
  | none =>
    rw [paste_of_empty h]
    exact .refl
  | some entry =>
    rw [paste_of_entry h]
    split
    · exact steers_current P e
    · split
      · exact steers_current P e
      · exact (steers_current P e).trans (steers_pasteBeside P _ _ _ _ _)

theorem steers_applyExternal (edit : Edit) : Steers (applyExternal edit).perform := by
  unfold applyExternal
  refine steers_bind (steers_onBuffer _) fun r => ?_
  exact steers_bind (steers_modify fun _ => .invalidate .refl) fun _ => steers_pure _

theorem steers_execute (P : Parser) (c : Command) : Steers (execute P c).perform := by
  intro e
  rw [perform_execute]
  cases c with
  | move m n => exact steers_move P m n e
  | delete n => exact steers_deleteForward P n _ e
  | deleteKeep n => exact steers_deleteForward P n _ e
  | deleteBack n => exact steers_deleteBackward P n e
  | yank n => exact steers_yank P n e
  | paste n p => exact steers_paste P n p e
  | query p => exact steers_ask P p e
  | goto o => exact .invalidate .refl

/-- The node that is selected at point if none is: the topmost one, unless it is empty. -/
def atPoint (P : Parser) (e : Engine) : Option NodeRef :=
  let a := (e.tree P).topmost e.buffer.point
  if ((e.tree P).spanAt a).isEmpty then none else some (.capture (e.tree P) a e.buffer.revision)

theorem current_of_idle (h : e.cursor.current = none) :
    (e.current P).2.cursor.current = e.atPoint P := by
  have hc : e.cursor.currentAt e.buffer.revision = none := by rw [Cursor.currentAt, h]; rfl
  rw [current_of_no_currentAt hc, atPoint]
  dsimp only
  split <;> rfl

end Engine

/-! ## Operations -/

/-- The operation looks for the selected node. -/
def Operation.selects : Operation → Bool
  | command t =>
    match Command.parse t with
    | .ok (.goto _) | .error _ => false
    | .ok _ => true
  | setPoint _ | invalidate | edit _ | handle _ => false
  | current | move _ _ | ask _ | deleteForward _ _ | deleteBackward _ | yank _ | paste _ _ => true

namespace Session

/-- A row of operations. Those that look for the selected node happen in structural mode. -/
inductive Proper (P : Parser) : Session → List Operation → Session → Prop
  | nil {s : Session} : Proper P s [] s
  | cons {s s' : Session} {o : Operation} {ops : List Operation} :
      (o.selects = true → s.modes.current = .structural) → Proper P (s.step P o).2 ops s' →
      Proper P s (o :: ops) s'

/-- Nothing is selected unless the mode is structural. -/
def Idle (s : Session) : Prop := s.modes.current ≠ .structural → s.engine.cursor.current = none

variable {P : Parser} {s s' : Session} {o : Operation}

theorem turns_act {α : Type} {x : Action Engine α} (hx : Engine.Steers x.perform) (s : Session)
    (reply : α → Reply) : s.engine.cursor.Turns (s.act x reply).2.engine.cursor := hx s.engine

theorem turns_handle (P : Parser) (m : ModeMachine) (event : ModeEvent) (e : Engine) :
    e.cursor.Turns (m.handle P event e).2.cursor := by
  have he : e.cursor.Turns (if event = .externalEdit then e.invalidate else e).cursor := by
    split
    · exact .invalidate .refl
    · exact .refl
  unfold ModeMachine.handle
  dsimp only
  split
  · exact he.trans (Engine.steers_current P _)
  · split
    · exact .invalidate he
    · exact he

/-- An operation changes the cursor by selections and losses of them only. -/
theorem turns_step (P : Parser) (s : Session) (o : Operation) :
    s.engine.cursor.Turns (s.step P o).2.engine.cursor := by
  cases o with
  | command t =>
    cases hc : Command.parse t with
    | error err =>
      simp only [step, hc]
      exact .refl
    | ok c =>
      simp only [step, hc]
      exact turns_act (Engine.steers_execute P c) s _
  | setPoint n => exact .invalidate .refl
  | current => exact Engine.steers_current P s.engine
  | invalidate => exact .invalidate .refl
  | edit e => exact turns_act (Engine.steers_applyExternal e) s _
  | move m n => exact Engine.steers_move P m n s.engine
  | ask p => exact Engine.steers_ask P p s.engine
  | deleteForward n keep => exact turns_act (Engine.steers_deleteForward P n keep) s _
  | deleteBackward n => exact turns_act (Engine.steers_deleteBackward P n) s _
  | yank n => exact Engine.steers_yank P n s.engine
  | paste n p => exact turns_act (Engine.steers_paste P n p) s _
  | handle event => exact turns_handle P s.modes event s.engine

/-- Only events change the mode. -/
theorem modes_step (ho : ∀ event, o ≠ .handle event) : (s.step P o).2.modes = s.modes := by
  cases o with
  | command t => cases hc : Command.parse t <;> simp only [step, hc, act]
  | handle event => exact absurd rfl (ho event)
  | setPoint | current | invalidate | edit | move | ask | deleteForward | deleteBackward | yank
  | paste => rfl

/-- Without a selected node, an operation that does not look for one leaves none behind. -/
theorem current_step (ho : o.selects = false) (hh : ∀ event, o ≠ .handle event)
    (h : s.engine.cursor.current = none) : (s.step P o).2.engine.cursor.current = none := by
  cases o with
  | command t =>
    cases hc : Command.parse t with
    | error err => simpa only [step, hc] using h
    | ok c =>
      cases c with
      | goto n =>
        simp only [step, hc]
        rfl
      | move | delete | deleteKeep | deleteBack | yank | paste | query =>
        simp [Operation.selects, hc] at ho
  | setPoint n => rfl
  | invalidate => rfl
  | edit e =>
    simp only [step, act, Engine.perform_applyExternal]
    split
    · rfl
    · exact h
  | handle event => exact absurd rfl (hh event)
  | current | move | ask | deleteForward | deleteBackward | yank | paste =>
    simp [Operation.selects] at ho

/-- What an event leaves selected: nothing outside of structural mode, the node at point if the mode
has become structural, and what was selected before if it has been; but nothing then if someone else
has changed the text. -/
theorem handle_cases (P : Parser) {m : ModeMachine} {e : Engine}
    (h : m.current ≠ .structural → e.cursor.current = none) (event : ModeEvent) :
    ((m.handle P event e).1.current ≠ .structural ∧ (m.handle P event e).2.cursor.current = none) ∨
    (m.current ≠ .structural ∧ (m.handle P event e).1.current = .structural ∧
      (m.handle P event e).2.cursor.current = e.atPoint P) ∨
    (m.current = .structural ∧ (m.handle P event e).1.current = .structural ∧
      (m.handle P event e).2.cursor.current
        = if event = .externalEdit then none else e.cursor.current) := by
  have hp : (if event = .externalEdit then e.invalidate else e).atPoint P = e.atPoint P := by
    split <;> rfl
  have hc : (if event = .externalEdit then e.invalidate else e).cursor.current
      = if event = .externalEdit then none else e.cursor.current := by
    split <;> rfl
  unfold ModeMachine.handle
  dsimp only
  by_cases hm : m.current = .structural
  · by_cases ht : m.target event = .structural
    · refine .inr (.inr ⟨hm, ht, ?_⟩)
      rw [if_neg (by simp [hm]), if_neg (by simp [ht]), hc]
    · refine .inl ⟨ht, ?_⟩
      rw [if_neg (by simp [hm]), if_pos ⟨hm, ht⟩]
      rfl
  · rw [h hm, ite_self] at hc
    by_cases ht : m.target event = .structural
    · refine .inr (.inl ⟨hm, ht, ?_⟩)
      rw [if_pos ⟨hm, ht⟩, Engine.current_of_idle hc, hp]
    · refine .inl ⟨ht, ?_⟩
      rw [if_neg (by simp [ht]), if_neg (by simp [hm]), hc]

/-! ## Runs -/

theorem Idle.step (h : Idle s) (ho : o.selects = true → s.modes.current = .structural) :
    Idle (s.step P o).2 := by
  intro hm
  by_cases hh : ∃ event, o = .handle event
  · obtain ⟨event, rfl⟩ := hh
    rcases handle_cases P h event with ⟨-, hc⟩ | ⟨-, ht, -⟩ | ⟨-, ht, -⟩
    · exact hc
    · exact absurd ht hm
    · exact absurd ht hm
  · have hh : ∀ event, o ≠ .handle event := fun event he => hh ⟨event, he⟩
    rw [modes_step hh] at hm
    exact current_step (Bool.eq_false_iff.2 fun hs => hm (ho hs)) hh (h hm)

/-- A proper run keeps the session idle, and all it does to the cursor is to turn it. -/
theorem Proper.idle {ops : List Operation} (hr : Proper P s ops s') (h : Idle s) :
    Idle s' ∧ s.engine.cursor.Turns s'.engine.cursor := by
  induction hr with
  | nil => exact ⟨h, .refl⟩
  | cons ho _ ih =>
    obtain ⟨hi, ht⟩ := ih (h.step ho)
    exact ⟨hi, (turns_step P _ _).trans ht⟩

theorem Opens.cursor (h : Opens s) : ∃ g, s.engine.cursor = .empty g := by
  cases h with
  | plain text l g m => exact ⟨g, rfl⟩
  | configured m he =>
    obtain ⟨l, -, rfl⟩ := Option.map_eq_some_iff.1 he
    exact ⟨_, rfl⟩

/-- Whatever the frontend and the rules, after every proper run from a fresh engine nothing is
selected or highlighted unless the mode is structural. An operation that makes the mode structural
selects the topmost node at point, if that is not empty. An edit by someone else that does not lead
into structural mode leaves nothing selected. -/
theorem selection_structural {f : Frontend} {rules : List TransitionRule} {e₀ : Engine}
    {ops : List Operation} (h₀ : Opens ⟨e₀, .start f rules⟩)
    (he : e₀.cursor.highlighter.events = []) (hr : Proper P ⟨e₀, .start f rules⟩ ops s) :
    (s.modes.current ≠ .structural →
      s.engine.cursor.current = none ∧ s.engine.cursor.region = none ∧
      ∀ event ∈ s.engine.cursor.highlighter.events.getLast?, event = .clear) ∧
    (∀ o s', (o.selects = true → s.modes.current = .structural) → (s.step P o).2 = s' →
      s.modes.current ≠ .structural → s'.modes.current = .structural →
      s'.engine.cursor.current = s.engine.atPoint P ∧
      s'.engine.cursor.region = (s.engine.atPoint P).map NodeRef.span) ∧
    ∀ s', (s.step P (.handle .externalEdit)).2 = s' →
      (s'.modes.current = .structural → s.modes.current = .structural) →
      s'.engine.cursor.current = none ∧ s'.engine.cursor.region = none := by
  obtain ⟨g, hg⟩ := h₀.cursor
  dsimp only at hg
  obtain ⟨hi, ht⟩ := hr.idle fun _ => by rw [hg]; rfl
  rw [hg] at he ht
  -- After one more operation the region still is that of the selected node.
  have region (o : Operation) : (s.step P o).2.engine.cursor.region
      = (s.step P o).2.engine.cursor.current.map NodeRef.span :=
    (ht.trans (turns_step P s o)).region
  refine ⟨fun hm => ⟨hi hm, ?_, ht.cleared he (hi hm)⟩, ?_, ?_⟩
  · rw [ht.region, hi hm]
    rfl
  · rintro o s' ho rfl hm hm'
    obtain ⟨event, rfl⟩ : ∃ event, o = .handle event := by
      by_contra hh
      rw [modes_step fun event he => hh ⟨event, he⟩] at hm'
      exact hm hm'
    have hc : (s.step P (.handle event)).2.engine.cursor.current = s.engine.atPoint P := by
      rcases handle_cases P hi event with ⟨ht, -⟩ | ⟨-, -, hc⟩ | ⟨hs, -⟩
      · exact absurd hm' ht
      · exact hc
      · exact absurd hs hm
    rw [region, hc]
    exact ⟨rfl, rfl⟩
  · rintro s' rfl hm
    have hc : (s.step P (.handle .externalEdit)).2.engine.cursor.current = none := by
      rcases handle_cases P hi .externalEdit with ⟨-, hc⟩ | ⟨hn, hs, -⟩ | ⟨-, -, hc⟩
      · exact hc
      · exact absurd (hm hs) hn
      · exact hc
    rw [region, hc]
    exact ⟨rfl, rfl⟩

/-- An edit by someone else leads out of structural mode and back into it. -/
def rewired : List TransitionRule :=
  [⟨.structural, .externalEdit, .insert⟩, ⟨.insert, .externalEdit, .structural⟩]

/-- A session on two letters with these rules. -/
def onRewired : Session :=
  ⟨.ofBuffer (.ofText ['a', ' ', 'b'] .json) (.recorder []), .start .plain rewired⟩

/-- Point is moved, structural mode entered and a question asked, and someone else's edit ends the
mode. -/
def interrupted : List Operation :=
  [.setPoint 2, .handle .enterStructural, .ask .last, .handle .externalEdit]

/-- Nothing is selected then. Another edit by someone else leads back, and selects the letter at
point. -/
theorem selection_structural_rewired :
    ∃ s s', Proper .letters onRewired interrupted s ∧ s.modes.current = .insert ∧
      s.engine.cursor.current = none ∧
      s.engine.cursor.highlighter.events.getLast? = some .clear ∧
      (s.step .letters (.handle .externalEdit)).2 = s' ∧ s'.modes.current = .structural ∧
      s'.engine.cursor.region = some ⟨2, 3⟩ := by
  have run : ∃ s s', Proper .letters onRewired interrupted s ∧ s.modes.current = .insert ∧
      s.engine.cursor.highlighter.events.getLast?.isSome = true ∧
      (s.step .letters (.handle .externalEdit)).2 = s' ∧ s'.modes.current = .structural ∧
      (s.engine.atPoint .letters).map NodeRef.span = some ⟨2, 3⟩ :=
    ⟨_, _, .cons nofun (.cons nofun (.cons (fun _ => rfl) (.cons nofun .nil))), rfl, rfl, rfl, rfl,
      rfl⟩
  obtain ⟨s, s', hr, hm, hl, hs, hm', hp⟩ := run
  have hn : s.modes.current ≠ .structural := by simp [hm]
  obtain ⟨hout, hin, -⟩ := selection_structural (.plain _ _ _ _) rfl hr
  obtain ⟨hc, -, hev⟩ := hout hn
  obtain ⟨event, hlast⟩ := Option.isSome_iff_exists.1 hl
  obtain rfl := hev event hlast
  obtain ⟨-, hreg⟩ := hin (.handle .externalEdit) s' nofun hs hn hm'
  exact ⟨s, s', hr, hm, hc, hlast, hs, hm', hreg.trans hp⟩

end Session

end TreeEdit
