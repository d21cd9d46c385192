import TreeEdit.Parser
import TreeEdit.Text.Blank
import TreeEdit.Text.Numeral
/-!
# Trees from rows

A tree is handed over as a list of rows, one for each node in the order of a
walk from the root, each with the depth of its node. A listing holds the trees
of several revisions, one row on a line: the revision, the depth, the letters of
what holds of the node (`n` named, `e` error, `m` missing, `-` none), the start,
the stop and the kind.
-/

namespace TreeEdit

/-- A node and its depth below the root. -/
structure Row where
  depth : Nat
  label : Label
deriving DecidableEq, Repr

namespace Tree

/-- Puts a row in front of finished trees; the trees one level below it are its children. -/
def adopt (r : Row) (done : List (Nat × Tree)) : List (Nat × Tree) :=
  let below := done.takeWhile fun d => d.1 == r.depth + 1
  let others := done.dropWhile fun d => d.1 == r.depth + 1
  (r.depth, node r.label (below.map (·.2))) :: others

/-- The tree of a list of rows; `none` unless the rows make one tree. -/
def ofRows? (rows : List Row) : Option Tree :=
  match rows.foldr adopt [] with
  | [(0, t)] => some t
  | _ => none

end Tree

namespace Row

/-- The label of a row: its kind, the letters of what holds of it, and its span. -/
def labelOf (kind : String) (letters : Text) (span : Span) : Label :=
  ⟨kind, letters.contains 'n', letters.contains 'e', letters.contains 'm', span⟩

/-- Reads a line of a listing: a revision and a row. -/
def ofLine? (line : Text) : Option (Nat × Row) := do
  match line.splitWhere (· == ' ') with
  | revision :: depth :: letters :: start :: stop :: kind =>
    let span : Span := ⟨← Numeral.word? start, ← Numeral.word? stop⟩
    let label := labelOf (String.ofList (Text.join [' '] kind)) letters span
    return (← Numeral.word? revision, ⟨← Numeral.word? depth, label⟩)
  | _ => none

end Row

namespace Parser

/-- The parser that knows the trees of some revisions, and answers any other with a bare node. -/
def ofTrees (known : List (Nat × Tree)) : Parser :=
  fun revision _ => (known.lookup revision).getD default

/-- The parser of a listing; `none` if a line is no row or the rows of a revision make no tree. -/
def ofListing? (t : Text) : Option Parser := do
  let rows ← (t.pieces.filter fun l => !l.isEmpty).mapM Row.ofLine?
  let revisions := (rows.map (·.1)).eraseDups
  let known ← revisions.mapM fun n => do
    let tree ← Tree.ofRows? ((rows.filter fun r => r.1 == n).map (·.2))
    return (n, tree)
  return ofTrees known

end Parser

end TreeEdit
