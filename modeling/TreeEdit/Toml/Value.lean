import TreeEdit.Text.Basic
/-!
# TOML values and tables

A document is built statement by statement. A table remembers what made it,
because that decides what may still be added: a table can be opened by a header
once, a dotted key adds only to tables that dotted keys made, and a table
between braces is closed.

A document that is wrong somewhere is still read to its end. That has one
consequence: a key that goes on from a value which was never finished is not
one more mistake but a fault, and there is no answer at all.
-/

namespace TreeEdit.Toml

/-- What made a table. -/
inductive Origin where
  /-- A header with its name. -/
  | header
  /-- The header of a table inside of it. -/
  | outer
  /-- A dotted key. -/
  | dotted
  | braces
  /-- Braces without an end. -/
  | unclosed
deriving DecidableEq, Repr

/-- A value of a document. Floats and dates are kept as they are written. -/
inductive Value where
  | string (t : Text)
  | integer (n : Int)
  | float (written : Text)
  | boolean (b : Bool)
  | datetime (written : Text)
  | array (elements : List Value)
  /-- An array whose elements have headers of their own. -/
  | tables (elements : List Value)
  | table (origin : Origin) (entries : List (Text × Value))
  /-- What stands for a value that is missing, or an array without an end. -/
  | lost
deriving Repr, Inhabited

/-- Keys with their values, in the order of the document. -/
abbrev Entries := List (Text × Value)

/-- The parts of a key, the last one apart. -/
structure Key where
  path : List Text
  name : Text
deriving DecidableEq, Repr

/-- Why a document has no entries. -/
inductive Trouble where
  | flaw
  /-- A key goes on from a value that was never finished. -/
  | fault
deriving DecidableEq, Repr

namespace Entries

/-- Gives a key another value, or adds the key at the end. -/
def put (es : Entries) (k : Text) (v : Value) : Entries :=
  if (es.lookup k).isSome then es.map fun e => if e.1 == k then (k, v) else e
  else es ++ [(k, v)]

/-- Goes along a path of keys into a table and changes it. Missing tables on the way are made
by `missing`; a table on the way is entered only if there is no `bar` to it. -/
def within (missing : Origin) (bar : Origin → Option Trouble)
    (change : Origin → Entries → Except Trouble (Origin × Entries)) :
    List Text → Origin → Entries → Except Trouble (Origin × Entries)
  | [], o, es => change o es
  | k :: ks, o, es =>
    match es.lookup k with
    | none => do
      let (o', sub) ← within missing bar change ks missing []
      return (o, es.put k (.table o' sub))
    | some (.table o' sub) =>
      match bar o' with
      | some t => .error t
      | none => do
        let (o'', sub) ← within missing bar change ks o' sub
        return (o, es.put k (.table o'' sub))
    | some (.tables ts) =>
      match ts.getLast? with
      | some (.table o' sub) => do
        let (o'', sub) ← within missing bar change ks o' sub
        return (o, es.put k (.tables (ts.dropLast ++ [.table o'' sub])))
      | _ => .error .flaw
    | some .lost => .error .fault
    | some _ => .error .flaw

/-- What keeps the path of a header out of a table. -/
def headerBar : Origin → Option Trouble
  | .braces => some .flaw
  | .unclosed => some .fault
  | _ => none

/-- What keeps a dotted key of a document out of a table. -/
def dottedBar : Origin → Option Trouble
  | .header => some .flaw
  | o => headerBar o

/-- What keeps a dotted key between braces out of a table. -/
def bracesBar : Origin → Option Trouble
  | .dotted => none
  | _ => some .flaw

/-- Adds the value of a key, which may be dotted and must be new. -/
def addPair (bar : Origin → Option Trouble) (k : Key) (v : Value) (o : Origin) (es : Entries) :
    Except Trouble (Origin × Entries) :=
  within .dotted bar (fun o es =>
    if (o == .dotted) == k.path.isEmpty then .error .flaw
    else if (es.lookup k.name).isSome then .error .flaw
    else .ok (o, es.put k.name v)) k.path o es

/-- Opens the table of a header, which must not have had one. -/
def openTable (k : Key) (es : Entries) : Except Trouble Entries :=
  (·.2) <$> within .outer headerBar (fun o es =>
    match es.lookup k.name with
    | none => .ok (o, es.put k.name (.table .header []))
    | some (.table .outer sub) => .ok (o, es.put k.name (.table .header sub))
    | some _ => .error .flaw) k.path .header es

/-- Goes on with the table of a header that was opened before, or puts one in the place of
another value. -/
def reopenTable (k : Key) (es : Entries) : Except Trouble Entries :=
  (·.2) <$> within .outer headerBar (fun o es =>
    match es.lookup k.name with
    | some (.table .header _) => .ok (o, es)
    | some (.table .dotted _) => .ok (o, es)
    | _ => .ok (o, es.put k.name (.table .header []))) k.path .header es

/-- Opens another table of an array of tables. -/
def openElement (k : Key) (es : Entries) : Except Trouble Entries :=
  (·.2) <$> within .outer headerBar (fun o es =>
    match es.lookup k.name with
    | none => .ok (o, es.put k.name (.tables [.table .header []]))
    | some (.tables ts) => .ok (o, es.put k.name (.tables (ts ++ [.table .header []])))
    | some _ => .error .flaw) k.path .header es

end Entries

end TreeEdit.Toml
