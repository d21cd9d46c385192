import TreeEdit.Buffer
import TreeEdit.Cursor
import TreeEdit.KillRing
import TreeEdit.Parser
/-!
# The engine

An engine is a buffer with a cursor and a kill ring. The cursor is derived from
point when it is needed (`current`), and derived anew after every edit
(`settle`), so a selected node is always one of the tree of the present
revision.
-/

namespace TreeEdit

/-- A buffer that is edited node by node. -/
structure Engine where
  buffer : Buffer
  cursor : Cursor
  killRing : KillRing
  /-- Whether a deletion forward leaves a line standing that it made blank. -/
  keepEmptyLines : Bool
deriving DecidableEq, Repr

namespace Engine

/-- An engine with the usual settings. -/
def ofBuffer (b : Buffer) (h : Highlighter) : Engine :=
  ⟨b, .empty h, .empty KillRing.defaultCapacity, false⟩

def inspect (e : Engine) : Text :=
  "Engine \x7b buffer: ".toList ++ e.buffer.inspect ++ ", cursor: ".toList ++ e.cursor.inspect
    ++ ", kill_ring: ".toList ++ e.killRing.inspect ++ ", keep_empty_lines: ".toList
    ++ (toString e.keepEmptyLines).toList ++ " \x7d".toList

def onBuffer {α : Type} (x : Action Buffer α) : Action Engine α :=
  .onPart buffer (fun e b => { e with buffer := b }) x

/-- Ends the sequence of deletions that share an entry of the kill ring. -/
def breakSequence (e : Engine) : Engine := { e with killRing := e.killRing.breakSequence }

def invalidate (e : Engine) : Engine := { e with cursor := e.cursor.invalidate }

/-- Moves point and drops the selection. -/
def setPoint (e : Engine) (offset : Nat) : Engine :=
  { e with buffer := e.buffer.setPoint offset }.breakSequence.invalidate

/-- Applies an edit made by someone else and drops the selection. A rejected edit changes
nothing. -/
def applyExternal (e : Edit) : Action Engine EditResult := do
  let result ← onBuffer (Buffer.apply e)
  modify fun s => s.breakSequence.invalidate
  return result

/-- Selects a node and moves point to its start. -/
def select (e : Engine) (r : NodeRef) : Engine :=
  { e with buffer := e.buffer.setPoint r.span.start, cursor := e.cursor.select r }

section

variable (P : Parser)

/-- The syntax tree of the present revision. -/
def tree (e : Engine) : Tree := P e.buffer.revision e.buffer.text

/-- The selected node. Without one, the topmost node at point is selected, unless it is empty;
point stays. -/
def current (e : Engine) : Option NodeRef × Engine :=
  match e.cursor.currentAt e.buffer.revision with
  | some r => (some r, e)
  | none =>
    let t := e.tree P
    let a := t.topmost e.buffer.point
    if (t.spanAt a).isEmpty then (none, e.invalidate)
    else
      let r := NodeRef.capture t a e.buffer.revision
      (some r, { e with cursor := e.cursor.select r })

/-- The address of the selected node in the present tree. -/
def focus (e : Engine) : Option Address × Engine :=
  let (r, e) := e.current P
  (r.bind fun r => r.resolve (e.tree P) e.buffer.revision, e)

/-- Moves point and selects a node there: a node of `size` bytes that starts at point, if one
is asked for and there is one, else the topmost node. An empty node is not selected. -/
def settle (e : Engine) (offset : Nat) (size : Option Nat) : Engine :=
  let e := { e with buffer := e.buffer.setPoint offset }
  let t := e.tree P
  let point := e.buffer.point
  let found := size.bind fun n => t.spanning? ⟨point, point + n⟩
  let a := found.getD (t.topmost point)
  if (t.spanAt a).isEmpty then e.invalidate
  else e.select (NodeRef.capture t a e.buffer.revision)

end

end Engine

end TreeEdit
