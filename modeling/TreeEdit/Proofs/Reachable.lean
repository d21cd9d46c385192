import TreeEdit.Proofs.Engine.Navigation
import TreeEdit.Proofs.Session
import TreeEdit.Proofs.Tree.Place
/-!
# Reachable sessions

A session is reachable if a row of operations without a fault leads to it. Its engine
is coherent, so what is selected is a node of the present tree.

An edit or a look at point never selects an empty node, but a movement may. Such a node
need not be found again, and then the engine is stuck: no operation gets anywhere from
the selection. `selection_found_iff` says exactly when that happens, and `selection_lost`
shows it after a deletion that leaves a missing token behind.
-/

namespace TreeEdit

namespace Engine

/-- Nothing can be done from the selected node. -/
structure Stuck (P : Parser) (e : Engine) : Prop where
  move : ∀ m n, (e.move P m n).1 = .none
  ask : ∀ p, (e.ask P p).1 = false
  yank : ∀ n, (e.yank P n).1 = .nothing
  deleteForward : ∀ n keep, ((deleteForward P n keep).perform e).1 = .ok .nothing
  deleteBackward : ∀ n, ((deleteBackward P n).perform e).1 = .ok .nothing
  paste : ∀ n p, ((paste P n p).perform e).1 = .ok .nothing

/-- Without a node in focus the engine is stuck. -/
theorem stuck_of_no_focus {P : Parser} {e : Engine} (h : (e.focus P).1 = none) : e.Stuck P where
  move m n := by rw [move_of_no_focus h]
  ask p := by
    have hf : e.focus P = (none, (e.focus P).2) := by rw [← h]
    rw [ask, hf]
  yank n := by
    have hf : e.focus P = (none, (e.focus P).2) := by rw [← h]
    rw [yank, hf]
  deleteForward n keep := by rw [perform_deleteForward, h]
  deleteBackward n := by rw [perform_deleteBackward, h]
  paste n p := by
    rcases paste_cases P e n p with hp | hp | ⟨entry, r, -, hr, hn⟩
    · rw [hp]
    · rw [hp]
    · rw [focus_eq, hr] at h
      simp [show r.resolve (e.tree P) e.buffer.revision = none from h] at hn

end Engine

namespace Session

/-- A session as it opens on a text, plain or by a configuration, with any highlighter and in any
mode. -/
inductive Opens : Session → Prop
  | plain (text : Text) (l : Language) (h : Highlighter) (m : ModeMachine) :
      Opens ⟨.ofBuffer (.ofText text l) h, m⟩
  | configured {c : Config} {text : Text} {h : Highlighter} {e : Engine} (m : ModeMachine) :
      c.engine? text h = some e → Opens ⟨e, m⟩

/-- Some row of operations that no fault has ended leads to the session. -/
def Reachable (P : Parser) (s : Session) : Prop :=
  ∃ s₀ ops, Opens s₀ ∧ s₀.run P ops = some s

variable {P : Parser} {s : Session}

theorem Opens.coherent (h : Opens s) : s.engine.Coherent P false := by
  have hc (g : Highlighter) : (Cursor.empty g).Coherent false := Cursor.coherent_empty (by simp)
  cases h with
  | plain text l g m =>
    exact Engine.coherent_of_no_selection (hc g) rfl (Buffer.valid_ofText text l)
  | @configured c text g e m he =>
    obtain ⟨l, -, rfl⟩ := Option.map_eq_some_iff.1 he
    exact Engine.coherent_of_no_selection (hc _) rfl (Buffer.valid_ofText text l)

theorem Reachable.coherent (hP : P.WellFormed) (h : Reachable P s) :
    s.engine.Coherent P false := by
  obtain ⟨s₀, ops, h₀, hr⟩ := h
  exact coherent_of_run hP h₀.coherent hr

/-- In a reachable session the selected node is found again exactly if it is not empty, or the
search for its place meets it; and if it is not found, the engine is stuck. -/
theorem selection_found_iff (hP : P.WellFormed) (hs : Reachable P s) {r : NodeRef}
    (hr : (s.engine.current P).1 = some r) :
    ∃ a, (s.engine.tree P).has a = true ∧
      r = .capture (s.engine.tree P) a s.engine.buffer.revision ∧
      (r.resolve (s.engine.tree P) s.engine.buffer.revision = some a ↔
        r.span.isEmpty = false ∨ (s.engine.tree P).Met r.span.start a) ∧
      (r.resolve (s.engine.tree P) s.engine.buffer.revision = none → s.engine.Stuck P) := by
  have hc := (hs.coherent hP).current
  obtain ⟨a, ha, hra⟩ := hc.node r (by rw [← Engine.current_fst, hr])
  rw [Engine.current_tree] at ha hra
  rw [Engine.current_buffer] at hra
  refine ⟨a, ha, hra, ?_, fun hn => ?_⟩
  · rw [hra]
    exact NodeRef.resolve_capture_iff (hP _ _).ordered ha _
  · refine Engine.stuck_of_no_focus ?_
    rw [Engine.focus_eq, hr]
    exact hn

end Session

/-! ## A node that is lost -/

/-- The tree of a text with braces around a string, a colon and a number. The number is missing if
its span is empty. -/
def Tree.object (number : Span) (stop : Nat) : Tree :=
  let token (start stop : Nat) : Tree := .node ⟨"token", false, false, false, ⟨start, stop⟩⟩ []
  let named (kind : String) (start stop : Nat) (ts : List Tree) : Tree :=
    .node ⟨kind, true, false, start == stop, ⟨start, stop⟩⟩ ts
  named "document" 0 stop [named "object" 0 stop [token 0 1,
    named "pair" 1 number.stop [
      named "string" 1 4 [token 1 2, named "string_content" 2 3 [], token 3 4],
      token 4 5, named "number" number.start number.stop []],
    token (stop - 1) stop]]

/-- A parser that knows one such text, with the number and without it. -/
def Parser.object : Parser := fun n x =>
  if x = ['{', '"', 'a', '"', ':', ' ', '1', '}'] then .object ⟨6, 7⟩ 8
  else if x = ['{', '"', 'a', '"', ':', ' ', '}'] then .object ⟨5, 5⟩ 7
  else letters n x

theorem Parser.wellFormed_object : object.WellFormed := by
  intro n x
  unfold object
  split
  · rename_i h
    subst h
    decide
  · split
    · rename_i h
      subst h
      decide
    · exact wellFormed_letters n x

namespace Session

/-- A session on the text with the number. -/
def onObject : Session :=
  ofBuffer (.ofText ['{', '"', 'a', '"', ':', ' ', '1', '}'] .json) (.recorder [])

/-- The number is deleted, which selects the string before it. -/
def deleteNumber : List Operation := [.setPoint 6, .deleteBackward 1]

/-- A movement from the string to the missing number succeeds, and its node is not found again; a
movement back gets nowhere. -/
theorem selection_lost :
    Parser.object.WellFormed ∧ ∃ s₀ s r, onObject.run .object deleteNumber = some s₀ ∧
      s₀.step .object (.move .next 1) = (.ok (.moved .next), s) ∧ Reachable .object s ∧
      (s.engine.current .object).1 = some r ∧
      r.resolve (s.engine.tree .object) s.engine.buffer.revision = none ∧
      (s.step .object (.move .previous 1)).1 = .ok (.moved .none) :=
  ⟨Parser.wellFormed_object, _, _, _, rfl, rfl,
    ⟨onObject, deleteNumber ++ [.move .next 1], .plain _ _ _ _, rfl⟩, rfl, rfl, rfl⟩

/-- The missing number is not met because the pair around it stops where it stands. -/
theorem selection_found_iff_object :
    ∃ s r, Reachable .object s ∧ (s.engine.current .object).1 = some r ∧ r.span = ⟨5, 5⟩ ∧
      (s.engine.tree .object).spanAt [1, 0] = ⟨1, 5⟩ ∧
      ¬ (s.engine.tree .object).Met 5 [2, 1, 0] ∧ s.engine.Stuck .object := by
  have hs : ∃ s r, onObject.run .object (deleteNumber ++ [.move .next 1]) = some s ∧
      (s.engine.current .object).1 = some r ∧ r.address = [2, 1, 0] ∧ r.span = ⟨5, 5⟩ ∧
      (s.engine.tree .object).spanAt [1, 0] = ⟨1, 5⟩ ∧
      r.resolve (s.engine.tree .object) s.engine.buffer.revision = none :=
    ⟨_, _, rfl, rfl, rfl, rfl, rfl, rfl⟩
  obtain ⟨s, r, hrun, hr, haddr, hspan, hpair, hn⟩ := hs
  have hreach : Reachable .object s := ⟨onObject, _, .plain _ _ _ _, hrun⟩
  obtain ⟨a, -, hra, hiff, hstuck⟩ := selection_found_iff Parser.wellFormed_object hreach hr
  refine ⟨s, r, hreach, hr, hspan, hpair, fun hm => ?_, hstuck hn⟩
  have ha : [2, 1, 0] = a := by
    rw [← haddr, hra]
    rfl
  rw [hn, hspan, ← ha] at hiff
  exact absurd (hiff.2 (.inr hm)) (by simp)

end Session

end TreeEdit
