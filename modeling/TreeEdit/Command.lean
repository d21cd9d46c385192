import TreeEdit.Engine.Motion
import TreeEdit.Engine.Structural
/-!
# Commands

A command is a name, and behind it a count, which is one if left out, or for
`goto` an offset. `Command.parse` reads the words of a text and `Command.print`
writes a command back. A name that ends in `?` asks a predicate.
-/

namespace TreeEdit

/-- What an engine can be told to do. -/
inductive Command where
  | move (m : Motion) (count : Nat)
  /-- Delete forward; a line left blank stays if the settings say so. -/
  | delete (count : Nat)
  /-- Delete forward; a line left blank stays. -/
  | deleteKeep (count : Nat)
  | deleteBack (count : Nat)
  | yank (count : Nat)
  | paste (count : Nat) (p : Placement)
  | query (p : Predicate)
  | goto (offset : Nat)
deriving DecidableEq, Repr

inductive CommandError where
  | empty
  | unknown (name : Text)
  | invalidCount (name value : Text)
  | missingOffset (name : Text)
  | unexpectedArgument (name argument : Text)
deriving DecidableEq, Repr

def CommandError.message : CommandError → Text
  | empty => "empty command".toList
  | unknown n => "unknown command: ".toList ++ n
  | invalidCount n v => "invalid count '".toList ++ v ++ "' for '".toList ++ n ++ "'".toList
  | missingOffset n => "'".toList ++ n ++ "' requires an offset".toList
  | unexpectedArgument n a =>
    "unexpected argument '".toList ++ a ++ "' for '".toList ++ n ++ "'".toList

namespace Predicate

/-- Every predicate, in the order they are shown. -/
def all : List Predicate := [root, treeRoot, first, last, initial, final]

/-- The name of a predicate, without the question mark. -/
def name : Predicate → String
  | root => "root"
  | treeRoot => "top"
  | first => "first"
  | last => "last"
  | initial => "initial"
  | final => "final"

def print (p : Predicate) : Text := p.name.toList ++ ['?']

def title : Predicate → String
  | root => "Root"
  | treeRoot => "TreeRoot"
  | first => "First"
  | last => "Last"
  | initial => "Initial"
  | final => "Final"

end Predicate

namespace Command

/-- The commands with a count, under their names. -/
def counted : List (String × (Nat → Command)) :=
  [("next", move .next), ("prev", move .previous), ("parent", move .parent), ("child", move .child),
    ("delete", delete), ("delete-keep", deleteKeep), ("delete-back", deleteBack), ("yank", yank),
    ("paste-after", fun n => paste n .after), ("paste-before", fun n => paste n .before)]

def number (name value : Text) : Except CommandError Nat :=
  match Numeral.word? value with
  | some n => .ok n
  | none => .error (.invalidCount name value)

def ofWords (name : Text) (argument : Option Text) : Except CommandError Command :=
  if name.getLast? = some '?' then
    match argument with
    | some a => .error (.unexpectedArgument name a)
    | none =>
      match Predicate.all.find? fun p => p.print == name with
      | some p => .ok (query p)
      | none => .error (.unknown name)
  else if name = "goto".toList then
    match argument with
    | some a => goto <$> number name a
    | none => .error (.missingOffset name)
  else
    match counted.find? fun c => c.1.toList == name with
    | none => .error (.unknown name)
    | some c =>
      match argument with
      | some a => c.2 <$> number name a
      | none => .ok (c.2 1)

def parse (t : Text) : Except CommandError Command :=
  match t.words with
  | [] => .error .empty
  | [name] => ofWords name none
  | [name, argument] => ofWords name (some argument)
  | name :: _ :: extra :: _ => .error (.unexpectedArgument name extra)

def print : Command → Text
  | move .next n => "next ".toList ++ Numeral.print n
  | move .previous n => "prev ".toList ++ Numeral.print n
  | move .parent n => "parent ".toList ++ Numeral.print n
  | move .child n => "child ".toList ++ Numeral.print n
  | delete n => "delete ".toList ++ Numeral.print n
  | deleteKeep n => "delete-keep ".toList ++ Numeral.print n
  | deleteBack n => "delete-back ".toList ++ Numeral.print n
  | yank n => "yank ".toList ++ Numeral.print n
  | paste n .after => "paste-after ".toList ++ Numeral.print n
  | paste n .before => "paste-before ".toList ++ Numeral.print n
  | goto n => "goto ".toList ++ Numeral.print n
  | query p => p.print

/-- The command in print, as a case with its arguments. -/
def inspect : Command → Text
  | move .next n => call "NextSibling" (Numeral.print n)
  | move .previous n => call "PrevSibling" (Numeral.print n)
  | move .parent n => call "Parent" (Numeral.print n)
  | move .child n => call "Child" (Numeral.print n)
  | delete n => call "Delete" (Numeral.print n)
  | deleteKeep n => call "DeleteKeep" (Numeral.print n)
  | deleteBack n => call "DeleteBack" (Numeral.print n)
  | yank n => call "Yank" (Numeral.print n)
  | paste n .after => call "Paste" (Numeral.print n ++ ", After".toList)
  | paste n .before => call "Paste" (Numeral.print n ++ ", Before".toList)
  | goto n => call "Goto" (Numeral.print n)
  | query p => call "Query" p.title.toList
where
  call (name : String) (arguments : Text) : Text := name.toList ++ ['('] ++ arguments ++ [')']

end Command

/-! ## Running commands -/

inductive CommandOutcome where
  | moved (m : Move)
  | edited (o : EditOutcome)
  | answered (b : Bool)
  /-- Point after a jump. -/
  | jumped (point : Nat)
deriving DecidableEq, Repr

/-- The command got somewhere, changed something, or was answered with yes. -/
def CommandOutcome.succeeded : CommandOutcome → Bool
  | moved m => !m.isNone
  | edited o => o.didAnything
  | answered b => b
  | jumped _ => true

def Engine.execute (P : Parser) : Command → Action Engine CommandOutcome
  | .move m n => do
    let (d, e) := (← get).move P m n
    set e
    return .moved d
  | .delete n => do return .edited (← deleteForward P n (← get).keepEmptyLines)
  | .deleteKeep n => do return .edited (← deleteForward P n true)
  | .deleteBack n => do return .edited (← deleteBackward P n)
  | .yank n => do
    let (o, e) := (← get).yank P n
    set e
    return .edited o
  | .paste n p => do return .edited (← paste P n p)
  | .query p => do
    let (b, e) := (← get).ask P p
    set e
    return .answered b
  | .goto offset => do
    modify fun e => e.setPoint offset
    return .jumped (← get).buffer.point

end TreeEdit
