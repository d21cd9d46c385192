import TreeEdit.Engine.Basic
/-!
# Modes

Which mode of editing is on, and which events lead from one to another. A
frontend has its own transitions; rules of a configuration go over them, the
last rule for a mode and an event first. An event without a transition leaves
the mode as it is.

The selection belongs to structural mode: entering it selects the node at point,
leaving it drops the selection.
-/

namespace TreeEdit

/-- What the editor does with the keys that are pressed. -/
inductive Mode where
  | normal
  | insert
  | structural
deriving DecidableEq, Repr

inductive ModeEvent where
  | enterStructural
  | exitStructural
  | enterInsert
  | escape
  /-- Someone else changed the text. -/
  | externalEdit
deriving DecidableEq, Repr

/-- The kind of editor around the engine. -/
inductive Frontend where
  /-- An editor with a normal mode, to which the other modes fall back. -/
  | modal
  /-- An editor that inserts unless in structural mode. -/
  | plain
deriving DecidableEq, Repr

/-- A transition that a configuration asks for. -/
structure TransitionRule where
  source : Mode
  event : ModeEvent
  target : Mode
deriving DecidableEq, Repr

namespace Mode

def all : List Mode := [normal, insert, structural]

def name : Mode → String
  | normal => "normal"
  | insert => "insert"
  | structural => "structural"

def ofName? (t : Text) : Option Mode := all.find? fun m => m.name.toList == t

end Mode

namespace ModeEvent

def all : List ModeEvent := [enterStructural, exitStructural, enterInsert, escape, externalEdit]

def name : ModeEvent → String
  | enterStructural => "enter-structural"
  | exitStructural => "exit-structural"
  | enterInsert => "enter-insert"
  | escape => "escape"
  | externalEdit => "external-edit"

def ofName? (t : Text) : Option ModeEvent := all.find? fun e => e.name.toList == t

end ModeEvent

namespace Frontend

def all : List Frontend := [modal, plain]

def name : Frontend → String
  | modal => "modal"
  | plain => "plain"

def ofName? (t : Text) : Option Frontend := all.find? fun f => f.name.toList == t

/-- The mode that a frontend starts in, and to which structural mode falls back. -/
def restingMode : Frontend → Mode
  | modal => .normal
  | plain => .insert

def transition? (f : Frontend) : Mode → ModeEvent → Option Mode
  | .structural, .exitStructural => some f.restingMode
  | .structural, .escape => some f.restingMode
  | .structural, .enterInsert => some .insert
  | .insert, .enterStructural => some .structural
  | .normal, .enterStructural => if f = modal then some .structural else none
  | .normal, .enterInsert => if f = modal then some .insert else none
  | .insert, .escape => if f = modal then some .normal else none
  | _, _ => none

end Frontend

/-- The mode that is on, and the transitions out of every mode. -/
structure ModeMachine where
  current : Mode
  frontend : Frontend
  rules : List TransitionRule
deriving DecidableEq, Repr

namespace ModeMachine

/-- A machine in the mode its frontend starts in. -/
def start (f : Frontend) (rules : List TransitionRule) : ModeMachine := ⟨f.restingMode, f, rules⟩

/-- Where the rules and the frontend lead from a mode. -/
def targetFrom (m : ModeMachine) (source : Mode) (event : ModeEvent) : Mode :=
  match m.rules.reverse.find? fun r => r.source == source && r.event == event with
  | some r => r.target
  | none => (m.frontend.transition? source event).getD source

/-- Where an event leads from the mode that is on. -/
def target (m : ModeMachine) (event : ModeEvent) : Mode := m.targetFrom m.current event

/-- Handles an event: the machine changes its mode, and the selection follows. -/
def handle (P : Parser) (m : ModeMachine) (event : ModeEvent) (e : Engine) :
    ModeMachine × Engine :=
  let target := m.target event
  let e := if event = .externalEdit then e.invalidate else e
  let e :=
    if m.current ≠ .structural ∧ target = .structural then (e.current P).2
    else if m.current = .structural ∧ target ≠ .structural then e.invalidate
    else e
  ({ m with current := target }, e)

end ModeMachine

end TreeEdit
