import TreeEdit.Config.Basic
import TreeEdit.Proofs.Engine.Coherence
/-!
# Coherence over whole sessions

Every operation keeps the engine of a session coherent, whether it succeeds or is
rejected. So after every row of operations that no fault has ended, the cursor, the
highlight, the tree and point agree (`run_coherent`).
-/

namespace TreeEdit

/-- The reply is one to an operation that brings point to a node. -/
def Reply.relocates : Reply → Bool
  | command o => o.relocates
  | moved m => !m.isNone
  | edited o => o.relocates
  | _ => false

namespace Session

/-- A session as it starts on a text with an empty recorder, plain or by a configuration. The
recorder is on unless the configuration turns highlighting off. -/
inductive Starts (text : Text) : Bool → Session → Prop
  | plain (l : Language) : Starts text true (ofBuffer (.ofText text l) (.recorder []))
  | configured {c : Config} {s : Session} : c.session? text (.recorder []) = some s →
      Starts text c.highlight s

variable {P : Parser} {on : Bool} {s s' : Session}

theorem Starts.coherent {text : Text} (h : Starts text on s) : s.engine.Coherent P on := by
  cases h with
  | plain l =>
    exact Engine.coherent_of_no_selection (Cursor.coherent_empty fun _ => rfl) rfl
      (Buffer.valid_ofText text l)
  | @configured c s h =>
    obtain ⟨e, he, rfl⟩ := Option.map_eq_some_iff.1 h
    obtain ⟨l, -, rfl⟩ := Option.map_eq_some_iff.1 he
    refine Engine.coherent_of_no_selection (Cursor.coherent_empty fun ho => ?_) rfl
      (Buffer.valid_ofText text l)
    rw [if_pos ho]

/-! ## One operation -/

theorem act_coherent {α : Type} {lands : α → Bool} {x : Action Engine α} {reply : α → Reply}
    (hx : Engine.Keeps P on lands x) (hl : ∀ a, (reply a).relocates = lands a)
    (h : s.engine.Coherent P on) {res : Except OperationError Reply}
    (hs : s.act x reply = (res, s')) (hf : ∀ err, res = .error err → err.isFault = false) :
    s'.engine.Coherent P on ∧
      ∀ r, res = .ok r → r.relocates = true → s'.engine.Landed := by
  unfold act at hs
  cases hp : x.perform s.engine with
  | mk r e =>
    rw [hp] at hs
    obtain ⟨rfl, rfl⟩ := Prod.mk.inj hs
    -- A fault of the action would be one of the operation.
    obtain ⟨hc, hland⟩ := hx s.engine h r e hp fun g hg => by
      subst hg
      simpa [OperationError.isFault] using hf (.failed (.fault g)) rfl
    refine ⟨hc, fun rep hr hrel => ?_⟩
    cases r with
    | error f => simp [Except.map, Except.mapError] at hr
    | ok a =>
      obtain rfl : reply a = rep := Except.ok.inj hr
      exact hland a rfl (hl a ▸ hrel)

theorem handle_coherent (h : s.engine.Coherent P on) (m : ModeMachine) (event : ModeEvent) :
    (m.handle P event s.engine).2.Coherent P on := by
  unfold ModeMachine.handle
  dsimp only
  have he : (if event = .externalEdit then s.engine.invalidate else s.engine).Coherent P on := by
    split
    · exact h.invalidate
    · exact h
  split
  · exact he.current
  · split
    · exact he.invalidate
    · exact he

/-- For an operation that cannot fail, the reply and the next engine say it all. -/
theorem coherent_of_ok {o : Operation} (reply : Reply) {e : Engine} {m : ModeMachine}
    (he : s.step P o = (.ok reply, ⟨e, m⟩)) (hc : e.Coherent P on)
    (hl : reply.relocates = true → e.Landed) {res : Except OperationError Reply}
    (hs : s.step P o = (res, s')) :
    s'.engine.Coherent P on ∧ ∀ r, res = .ok r → r.relocates = true → s'.engine.Landed := by
  obtain ⟨rfl, rfl⟩ := Prod.mk.inj (he.symm.trans hs)
  exact ⟨hc, fun r hr => Except.ok.inj hr ▸ hl⟩

/-- An operation without a fault leaves a coherent engine, also if it has no reply. -/
theorem step_coherent (hP : P.WellFormed) (h : s.engine.Coherent P on) {o : Operation}
    {res : Except OperationError Reply} (hs : s.step P o = (res, s'))
    (hf : ∀ err, res = .error err → err.isFault = false) :
    s'.engine.Coherent P on ∧ ∀ r, res = .ok r → r.relocates = true → s'.engine.Landed := by
  cases o with
  | command t =>
    cases hc : Command.parse t with
    | error err =>
      simp only [step, hc] at hs
      obtain ⟨rfl, rfl⟩ := Prod.mk.inj hs
      exact ⟨h, fun r hr => by simp at hr⟩
    | ok c =>
      simp only [step, hc] at hs
      exact act_coherent (Engine.keeps_execute hP c) (fun _ => rfl) h hs hf
  | setPoint n => exact coherent_of_ok .done rfl (h.setPoint n) (by simp [Reply.relocates]) hs
  | current =>
    exact coherent_of_ok (.node (s.engine.current P).1) rfl h.current (by simp [Reply.relocates]) hs
  | invalidate => exact coherent_of_ok .done rfl h.invalidate (by simp [Reply.relocates]) hs
  | edit e => exact act_coherent (Engine.keeps_applyExternal e) (fun _ => rfl) h hs hf
  | move m n =>
    obtain ⟨hc, hl⟩ := h.move hP m n
    refine coherent_of_ok (.moved (s.engine.move P m n).1) rfl hc (fun hr => hl ?_) hs
    simpa [Reply.relocates] using hr
  | ask p =>
    exact coherent_of_ok (.answered (s.engine.ask P p).1) rfl (h.ask p)
      (by simp [Reply.relocates]) hs
  | deleteForward n keep =>
    exact act_coherent (Engine.keeps_deleteForward hP n keep) (fun _ => rfl) h hs hf
  | deleteBackward n =>
    exact act_coherent (Engine.keeps_deleteBackward hP n) (fun _ => rfl) h hs hf
  | yank n =>
    refine coherent_of_ok (.edited (s.engine.yank P n).1) rfl (h.yank n) (fun hr => ?_) hs
    rw [Reply.relocates, Engine.relocates_yank] at hr
    simp at hr
  | paste n p => exact act_coherent (Engine.keeps_paste hP n p) (fun _ => rfl) h hs hf
  | handle event =>
    exact coherent_of_ok (.mode (s.modes.handle P event s.engine).1.current) rfl
      (handle_coherent h s.modes event) (by simp [Reply.relocates]) hs

/-! ## Runs -/

theorem coherent_of_run (hP : P.WellFormed) (h : s.engine.Coherent P on) {ops : List Operation}
    (hr : s.run P ops = some s') : s'.engine.Coherent P on := by
  induction ops generalizing s with
  | nil => exact Option.some.inj hr ▸ h
  | cons o ops ih =>
    unfold run at hr
    split at hr
    · rename_i err s₁ hs
      split at hr
      · simp at hr
      · -- Without a reply the run goes on, from a state that is coherent all the same.
        rename_i hn
        refine ih (step_coherent hP h hs fun err' he => ?_).1 hr
        cases he
        simpa using hn
    · rename_i r s₁ hs
      exact ih (step_coherent hP h hs fun err he => by simp at he).1 hr

/-- After every run that no fault has ended, the region is the span of the selected node and is
what the recorder shows; the selected node is one of the present tree; and point is a boundary.
If the next operation replies that it moved, deleted or pasted, point is at the start of the node
that is selected then. -/
theorem run_coherent (hP : P.WellFormed) {text : Text} {s₀ : Session} (h₀ : Starts text on s₀)
    {ops : List Operation} (hr : s₀.run P ops = some s) :
    s.engine.Coherent P on ∧ ∀ o r s', s.step P o = (.ok r, s') → r.relocates = true →
      s'.engine.Coherent P on ∧ s'.engine.Landed := by
  have h := coherent_of_run hP h₀.coherent hr
  refine ⟨h, fun o r s' hs hrel => ?_⟩
  obtain ⟨hc, hl⟩ := step_coherent hP h hs (by simp)
  exact ⟨hc, hl r rfl hrel⟩

/-- A session on two letters. -/
def opened : Session := ofBuffer (.ofText ['a', ' ', 'b'] .json) (.recorder [])

/-- A copy, a movement, an edit from outside that is rejected, and a change of mode. -/
def operations : List Operation :=
  [.setPoint 2, .yank 1, .move .previous 1, .edit (.insert 9 ['c']), .handle .enterStructural]

/-- The paste that follows selects the pasted letter and brings point to it. -/
theorem run_coherent_operations :
    ∃ s s', opened.run .letters operations = some s ∧ s.engine.Coherent .letters true ∧
      s.step .letters (.paste 1 .after) = (.ok (.edited (.pasted ⟨2, 3⟩)), s') ∧
      s'.engine.cursor.region = some ⟨2, 3⟩ ∧ s'.engine.Coherent .letters true ∧
      s'.engine.Landed :=
  have h {s : Session} (hr : opened.run .letters operations = some s) :=
    run_coherent Parser.wellFormed_letters (.plain .json) hr
  ⟨_, _, rfl, (h rfl).1, rfl, rfl,
    (h rfl).2 (.paste 1 .after) (.edited (.pasted ⟨2, 3⟩)) _ rfl rfl⟩

end Session

end TreeEdit
