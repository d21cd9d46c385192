import TreeEdit.NodeRef
/-!
# The cursor

The node that is selected, and the region that is highlighted for it. A
highlighter is told of every selection and of every loss of one; a recorder
keeps what it was told.
-/

namespace TreeEdit

/-- What a highlighter is told. -/
inductive HighlightEvent where
  | set (span : Span)
  | clear
deriving DecidableEq, Repr

/-- Where highlight events go. -/
inductive Highlighter where
  | silent
  /-- Into a log, the oldest first. -/
  | recorder (events : List HighlightEvent)
deriving DecidableEq, Repr

def Highlighter.tell : Highlighter → HighlightEvent → Highlighter
  | silent, _ => silent
  | recorder es, e => recorder (es ++ [e])

/-- The events told so far, the oldest first. -/
def Highlighter.events : Highlighter → List HighlightEvent
  | silent => []
  | recorder es => es

structure Cursor where
  current : Option NodeRef
  region : Option Span
  highlighter : Highlighter
deriving DecidableEq, Repr

namespace Cursor

def empty (h : Highlighter) : Cursor := ⟨none, none, h⟩

/-- The selected node, if it is one of the revision. -/
def currentAt (c : Cursor) (revision : Nat) : Option NodeRef :=
  c.current.filter fun r => r.revision == revision

/-- Selects a node and highlights its span. -/
def select (c : Cursor) (r : NodeRef) : Cursor :=
  ⟨some r, some r.span, c.highlighter.tell (.set r.span)⟩

/-- Drops the selection, and clears the highlight if there was one. -/
def invalidate (c : Cursor) : Cursor :=
  ⟨none, none,
    if c.current.isSome || c.region.isSome then c.highlighter.tell .clear else c.highlighter⟩

def inspect (c : Cursor) : Text :=
  let current := match c.current with
    | none => "None".toList
    | some r => "Some(".toList ++ r.inspect ++ [')']
  let region := match c.region with
    | none => "None".toList
    | some s =>
      "Some(".toList ++ Numeral.print s.start ++ "..".toList ++ Numeral.print s.stop ++ [')']
  "Cursor \x7b current: ".toList ++ current ++ ", region: ".toList ++ region ++ ", .. \x7d".toList

end Cursor

end TreeEdit
