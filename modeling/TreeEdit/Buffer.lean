import TreeEdit.Action
import TreeEdit.Language
import TreeEdit.Text.Line
/-!
# Buffers

A buffer is a text with a point in it and a revision that counts its changes.
Every change goes through `Buffer.apply`, which either changes the text as a
verified edit says, and then counts up the revision, or changes nothing. The
four lemmas `apply_of_…` say which of the two it is.

The syntax tree is not part of the buffer: a parser answers for each revision.
-/

namespace TreeEdit

/-- A text that is being edited. -/
structure Buffer where
  text : Text
  /-- The place of editing, a boundary of the text. -/
  point : Nat
  /-- Number of changes made so far. -/
  revision : Nat
  language : Language
deriving DecidableEq, Repr

namespace Buffer

/-- A buffer as it is opened: point at the start, no change made. -/
def ofText (text : Text) (language : Language) : Buffer := ⟨text, 0, 0, language⟩

/-- Moves point to the greatest boundary that is at most `offset`. -/
def setPoint (b : Buffer) (offset : Nat) : Buffer := { b with point := b.text.floor offset }

def inspect (b : Buffer) : Text :=
  "Buffer \x7b language: ".toList ++ b.language.title.toList ++ ", len: ".toList
    ++ Numeral.print b.text.size ++ ", point: ".toList ++ Numeral.print b.point
    ++ ", revision: ".toList ++ Numeral.print b.revision ++ " \x7d".toList

/-! ## Edits -/

/-- Applies a verified edit. -/
def apply (e : Edit) : Action Buffer EditResult := .ofFun fun b =>
  match e.site b.text with
  | .error err => (.error (.rejected err), b)
  | .ok (x, y, z) =>
    if y = e.replacement then (.ok .alreadyApplied, b)
    else if e.expected.accepts y then
      (.ok (.applied e.span.start e.span.size e.replacement.size),
        { b with
          text := x ++ e.replacement ++ z
          point := e.follow b.point
          revision := b.revision + 1 })
    else (.error (.rejected (.mismatch e.span e.expected y)), b)

def insert (offset : Nat) (t : Text) : Action Buffer EditResult := apply (.insert offset t)

/-- Removes the text of a span and returns it. -/
def delete (span : Span) : Action Buffer Text := do
  let b ← get
  match b.text.slice? span.start span.stop with
  | none => throw (.rejected (.invalidRange span b.text.size))
  | some removed =>
    let _ ← apply (.delete span removed)
    return removed

/-! ## Lines -/

def lineAt (offset : Nat) : Action Buffer Line := do
  Action.require .insideCharacter ((← get).text.lineAt? offset)

/-- Removes the line that holds an offset, with one newline, and returns the span it took. -/
def deleteLine (offset : Nat) : Action Buffer Span := do
  let line ← lineAt offset
  let _ ← delete line.removal
  return line.removal

/-- Gives the line that holds an offset another indentation, and returns by how much the
text grew. -/
def reindent (offset : Nat) (indent : Text) : Action Buffer Int := do
  let line ← lineAt offset
  if line.indentation = indent then
    return 0
  else
    let e := Edit.replace ⟨line.start, line.firstNonBlank⟩ indent line.indentation
    let _ ← apply e
    return e.delta

/-! ## What an edit does -/

/-- An edit without a place in the text is rejected and changes nothing. -/
theorem apply_of_no_site {b : Buffer} {e : Edit} {err : EditError}
    (h : e.site b.text = .error err) : (apply e).perform b = (.error (.rejected err), b) := by
  simp [apply, h]

/-- An edit whose span holds the replacement already changes nothing. -/
theorem apply_of_done {b : Buffer} {e : Edit} {x z : Text}
    (h : e.site b.text = .ok (x, e.replacement, z)) :
    (apply e).perform b = (.ok .alreadyApplied, b) := by
  simp [apply, h]

/-- An edit that finds another text than it expects is rejected and changes nothing. -/
theorem apply_of_mismatch {b : Buffer} {e : Edit} {x y z : Text}
    (h : e.site b.text = .ok (x, y, z)) (hy : y ≠ e.replacement)
    (hv : e.expected.accepts y = false) :
    (apply e).perform b = (.error (.rejected (.mismatch e.span e.expected y)), b) := by
  simp [apply, h, hy, hv]

/-- Any other edit replaces the text of its span and counts up the revision. -/
theorem apply_of_match {b : Buffer} {e : Edit} {x y z : Text}
    (h : e.site b.text = .ok (x, y, z)) (hy : y ≠ e.replacement)
    (hv : e.expected.accepts y = true) :
    (apply e).perform b = (.ok (.applied e.span.start e.span.size e.replacement.size),
      { b with text := x ++ e.replacement ++ z, point := e.follow b.point,
               revision := b.revision + 1 }) := by
  simp [apply, h, hy, hv]

end Buffer

end TreeEdit
