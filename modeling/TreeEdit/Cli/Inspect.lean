import TreeEdit.Cli.Basic
import TreeEdit.Cli.Request
import TreeEdit.Cli.Style
/-!
# Inspecting a file

Shows the node at an offset, the visible nodes next to it, and the predicates.
-/

namespace TreeEdit.Cli

/-- The start of the first line of a text. -/
def preview (t : Text) : Text :=
  let first := t.takeWhile (· != '\n')
  let carriage := first.length < t.length ∧ first.getLast? = some '\r'
  (if carriage then first.dropLast else first).take 60

/-- A node with its span and the start of its text. -/
def nodeLine (color : Bool) (t : Tree) (text : Text) (label : String) (a : Address) : Text :=
  let span := t.spanAt a
  paint color .bold (padLeft label.toList) ++ [' '] ++ paint color .cyan (t.sub a).label.kind.toList
    ++ " [".toList ++ Numeral.print span.start ++ "..".toList ++ Numeral.print span.stop
    ++ ") ".toList
    ++ paint color .dimmed (preview ((text.slice? span.start span.stop).getD [])) ++ ['\n']

def predicateLine (color : Bool) (p : Predicate) (b : Bool) : Text :=
  paint color .bold (padLeft p.print) ++ [' ']
    ++ (if b then paint color .green "true".toList else "false".toList) ++ ['\n']

/-- The node at point, the visible nodes above and below it, and the predicates. -/
def inspection (s : Setting) (e : Engine) : Except Ending Text :=
  match e.current s.parser with
  | (none, _) => .ok (paint s.color .yellow "No node at offset".toList ++ ['\n'])
  | (some r, e) =>
    let t := e.tree s.parser
    match r.resolve t e.buffer.revision with
    | none => complain "current node does not resolve".toList none
    | some a =>
      let line := nodeLine s.color t e.buffer.text
      let up := t.visibleParent a
      .ok <| line "node" a
        ++ (if up = a then [] else line "parent" up)
        ++ ((t.visibleChild? a).map (line "child")).getD []
        ++ Predicate.all.flatMap fun p => predicateLine s.color p (e.ask s.parser p).1

def inspect (s : Setting) (r : InspectRequest) : Outcome :=
  let shown : Except Ending Text := do
    let language ← chooseLanguage r.language r.file Config.default
    let text ← readSource s r.file
    let engine ← openEngine { Config.default with language := language } text
    inspection s (engine.setPoint r.offset)
  match shown with
  | .ok t => ⟨0, t, [], s.files⟩
  | .error e => e.outcome [] s.files

end TreeEdit.Cli
