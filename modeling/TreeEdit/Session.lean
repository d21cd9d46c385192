import TreeEdit.Command
import TreeEdit.Mode
/-!
# Sessions

A session is an engine together with the modes of its editor. `step` is one
operation of a user, and `run` a row of them, which ends early at a fault.
-/

namespace TreeEdit

structure Session where
  engine : Engine
  modes : ModeMachine
deriving DecidableEq, Repr

/-- What a user can do. -/
inductive Operation where
  /-- Run the command with this text. -/
  | command (t : Text)
  | setPoint (offset : Nat)
  | current
  | invalidate
  /-- Change the text from outside. -/
  | edit (e : Edit)
  | move (m : Motion) (count : Nat)
  | ask (p : Predicate)
  | deleteForward (count : Nat) (keep : Bool)
  | deleteBackward (count : Nat)
  | yank (count : Nat)
  | paste (count : Nat) (p : Placement)
  | handle (event : ModeEvent)
deriving DecidableEq, Repr

inductive Reply where
  | done
  | command (o : CommandOutcome)
  | node (r : Option NodeRef)
  | applied (r : EditResult)
  | moved (m : Move)
  | answered (b : Bool)
  | edited (o : EditOutcome)
  | mode (m : Mode)
deriving DecidableEq, Repr

/-- Why an operation has no reply. -/
inductive OperationError where
  | noCommand (e : CommandError)
  | failed (f : Failure)
deriving DecidableEq, Repr

/-- The run ends with this error. -/
def OperationError.isFault : OperationError → Bool
  | failed (.fault _) => true
  | _ => false

namespace Session

/-- A session on a buffer with the usual settings, in a modal editor. -/
def ofBuffer (b : Buffer) (h : Highlighter) : Session := ⟨.ofBuffer b h, .start .modal []⟩

def act {α : Type} (s : Session) (x : Action Engine α) (reply : α → Reply) :
    Except OperationError Reply × Session :=
  let (r, e) := x.perform s.engine
  ((r.map reply).mapError .failed, { s with engine := e })

variable (P : Parser)

def step (s : Session) : Operation → Except OperationError Reply × Session
  | .command t =>
    match Command.parse t with
    | .error e => (.error (.noCommand e), s)
    | .ok c => s.act (Engine.execute P c) .command
  | .setPoint o => (.ok .done, { s with engine := s.engine.setPoint o })
  | .current => let (r, e) := s.engine.current P; (.ok (.node r), { s with engine := e })
  | .invalidate => (.ok .done, { s with engine := s.engine.invalidate })
  | .edit e => s.act (Engine.applyExternal e) .applied
  | .move m n => let (d, e) := s.engine.move P m n; (.ok (.moved d), { s with engine := e })
  | .ask p => let (b, e) := s.engine.ask P p; (.ok (.answered b), { s with engine := e })
  | .deleteForward n keep => s.act (Engine.deleteForward P n keep) .edited
  | .deleteBackward n => s.act (Engine.deleteBackward P n) .edited
  | .yank n => let (o, e) := s.engine.yank P n; (.ok (.edited o), { s with engine := e })
  | .paste n p => s.act (Engine.paste P n p) .edited
  | .handle event =>
    let (m, e) := s.modes.handle P event s.engine
    (.ok (.mode m.current), { s with engine := e, modes := m })

/-- A row of operations: the session after it, or `none` if a fault ended it. -/
def run (s : Session) : List Operation → Option Session
  | [] => some s
  | o :: os =>
    match s.step P o with
    | (.error e, s') => if e.isFault then none else s'.run os
    | (.ok _, s') => s'.run os

end Session

end TreeEdit
