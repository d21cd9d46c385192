import TreeEdit.Engine.Basic
import TreeEdit.Text.Snippet
import TreeEdit.Tree.Sibling
/-!
# Structural edits

Deleting, copying and pasting whole nodes. A deletion reaches from the selected
node over its siblings; the sibling behind it becomes the selected node. A line
that a deletion leaves blank goes as well, without entering the kill ring.

What is pasted stands on lines of its own next to a node that does, and is set
off by a space next to any other.
-/

namespace TreeEdit

/-- What a structural edit did. The span of a deletion is one of the text before it, the span
of a paste one of the text after it. -/
inductive EditOutcome where
  | deleted (span : Span)
  | yanked (span : Span)
  | pasted (span : Span)
  /-- There was no node, or nothing to paste. -/
  | nothing
deriving DecidableEq, Repr

/-- The side of the selected node that a paste goes to. -/
inductive Placement where
  | before
  | after
deriving DecidableEq, Repr

namespace EditOutcome

def didAnything : EditOutcome → Bool
  | nothing => false
  | _ => true

def inspect : EditOutcome → Text
  | deleted s => "Deleted".toList ++ spanFields s
  | yanked s => "Yanked".toList ++ spanFields s
  | pasted s => "Pasted".toList ++ spanFields s
  | nothing => "Nothing".toList
where
  spanFields (s : Span) : Text :=
    " \x7b byte_start: ".toList ++ Numeral.print s.start ++ ", byte_end: ".toList
      ++ Numeral.print s.stop ++ " \x7d".toList

end EditOutcome

namespace Engine

variable (P : Parser)

/-! ## Deleting -/

/-- From the node at `a` over its next siblings, `count` nodes in all as far as there are. -/
def forwardSpan (t : Tree) (a : Address) (count : Nat) : Span :=
  ⟨t.startAt a, (t.spanAt (Tree.nth t.next? (max count 1) a)).stop⟩

/-- From the previous siblings of the node at `a` up to it, `count` nodes in all as far as
there are. -/
def backwardSpan (t : Tree) (a : Address) (count : Nat) : Span :=
  ⟨t.startAt (Tree.nth t.previous? (max count 1) a), (t.spanAt a).stop⟩

/-- Removes the line that holds an offset if it is blank, unless the text is empty. Returns
where the offset `tracked` is afterwards. -/
def removeBlankLine (offset : Nat) (tracked : Option Nat) : Action Buffer (Option Nat) := do
  if (← get).text.isEmpty then
    return tracked
  else
    let line ← Buffer.lineAt offset
    if line.isBlank then
      let removed ← Buffer.deleteLine offset
      return tracked.map removed.shiftPast
    else
      return tracked

/-- Where a node behind the span, or before it, starts once the span is gone. -/
def startAfterRemoval (d : Direction) (removed : Span) (neighbour : Span) :
    Action Buffer Nat :=
  match d with
  | .backward => pure neighbour.start
  | .forward =>
    if removed.size ≤ neighbour.start then pure (neighbour.start - removed.size)
    else throw (.fault .overflow)

/-- Deletes a span into the kill ring, removes the line it leaves blank if `clean` is set, and
selects the neighbour. -/
def deleteSpan (d : Direction) (span : Span) (neighbour : Option Span) (clean : Bool) :
    Action Engine EditOutcome := do
  let removed ← onBuffer (Buffer.delete span)
  modify fun e => { e with killRing := e.killRing.kill removed d }
  let tracked ← onBuffer (neighbour.mapM (startAfterRemoval d span))
  let tracked ← if clean then onBuffer (removeBlankLine span.start tracked) else pure tracked
  modify fun e => e.settle P (tracked.getD (min e.buffer.point span.start))
    (neighbour.map Span.size)
  return .deleted span

/-- Deletes the selected node and its next siblings, `count` nodes in all. A line left blank
stays if `keep` is set. -/
def deleteForward (count : Nat) (keep : Bool) : Action Engine EditOutcome := do
  let (a, e) := (← get).focus P
  set e
  match a with
  | none => return .nothing
  | some a =>
    let t := e.tree P
    let follower := (t.next? (Tree.nth t.next? (max count 1) a)).map t.spanAt
    deleteSpan P .forward (forwardSpan t a count) follower !keep

/-- Deletes the selected node and its previous siblings, `count` nodes in all. -/
def deleteBackward (count : Nat) : Action Engine EditOutcome := do
  let (a, e) := (← get).focus P
  set e
  match a with
  | none => return .nothing
  | some a =>
    let t := e.tree P
    let predecessor := (t.previous? (Tree.nth t.previous? (max count 1) a)).map t.spanAt
    deleteSpan P .backward (backwardSpan t a count) predecessor true

/-! ## Copying -/

/-- Copies the selected node and its next siblings, `count` nodes in all. -/
def yank (count : Nat) (e : Engine) : EditOutcome × Engine :=
  match e.focus P with
  | (none, e) => (.nothing, e)
  | (some a, e) =>
    let span := forwardSpan (e.tree P) a count
    match e.buffer.text.slice? span.start span.stop with
    | none => (.nothing, e)
    | some t => (.yanked span, { e with killRing := e.killRing.copy t })

/-! ## Pasting -/

/-- The greatest number of copies in one paste: a list of them, with three machine words for
each, has to fit the memory that 63 bits can address. -/
def copyLimit : Nat := (signedLimit - 1) / 24

/-- The span of `size` bytes from a start that is computed in signed words and read as an
unsigned one. -/
def spanFrom (start : Int) (size : Nat) : Action Buffer Span :=
  let start := (start % (wordLimit : Int)).toNat
  if start + size < wordLimit then pure ⟨start, start + size⟩ else throw (.fault .overflow)

/-- Pastes on lines of its own, with the indentation of the line that the node starts on. -/
def pasteBlock (entry : Text) (count : Nat) (placement : Placement) (node : Span) :
    Action Buffer Span := do
  let line ← Buffer.lineAt node.start
  let indent := line.indentation
  let eol := (← get).text.lineEnding
  let body := (entry.rebase indent).copies (eol ++ indent) count
  match placement with
  | .after =>
    let _ ← Buffer.insert node.stop (eol ++ body)
    let shift ← Buffer.reindent (node.stop + eol.size) indent
    spanFrom (node.stop + eol.size + shift) body.size
  | .before =>
    let _ ← Buffer.insert node.start (body ++ eol)
    let _ ← Buffer.reindent (node.start + (body ++ eol).size) indent
    return ⟨node.start, node.start + body.size⟩

/-- Pastes on the line of the node, with a space between. -/
def pasteInline (entry : Text) (count : Nat) (placement : Placement) (node : Span) :
    Action Buffer Span := do
  let body := entry.copies [' '] count
  match placement with
  | .after =>
    let _ ← Buffer.insert node.stop (' ' :: body)
    return ⟨node.stop + 1, node.stop + 1 + body.size⟩
  | .before =>
    let _ ← Buffer.insert node.start (body ++ [' '])
    return ⟨node.start, node.start + body.size⟩

/-- Pastes copies of a text next to a node and returns the span they took. -/
def pasteText (entry : Text) (count : Nat) (placement : Placement) (node : Span) :
    Action Buffer Span := do
  let block ← Action.require .insideCharacter ((← get).text.isBlock? node)
  if copyLimit < count then
    throw (.fault .overflow)
  else if block then
    pasteBlock entry count placement node
  else
    pasteInline entry count placement node

/-- Pastes copies of the newest entry of the kill ring next to the selected node and moves
point to them. -/
def paste (count : Nat) (placement : Placement) : Action Engine EditOutcome := do
  match (← get).killRing.top? with
  | none => return .nothing
  | some entry =>
    let (r, e) := (← get).current P
    set e
    match r with
    | none => return .nothing
    | some r =>
      if (r.resolve (e.tree P) e.buffer.revision).isNone then
        return .nothing
      else
        modify breakSequence
        let span ← onBuffer (pasteText entry (max count 1) placement r.span)
        modify fun e => e.settle P span.start none
        return .pasted span

end Engine

end TreeEdit
