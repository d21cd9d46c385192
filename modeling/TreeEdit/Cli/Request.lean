import TreeEdit.Text.Numeral
/-!
# Requests on the command line

The arguments of a call are read into a request: a subcommand with its options
and its file. An option is given by its long name with two dashes, or by its
letter with one; letters of options without a value can be put together. What
follows `--` is no option.

A request for help or for the version ends the reading at once, and so does the
first argument that makes no sense.
-/

namespace TreeEdit.Cli

inductive Flag where
  | language
  | config
  | offset
  | command
  | diff
  | json
  | inPlace
  | help
deriving DecidableEq, Repr

namespace Flag

def name : Flag → Text
  | language => "lang".toList
  | config => "config".toList
  | offset => "at".toList
  | command => "command".toList
  | diff => "diff".toList
  | json => "json".toList
  | inPlace => "in-place".toList
  | help => "help".toList

def letter? : Flag → Option Char
  | language => some 'l'
  | command => some 'c'
  | diff => some 'd'
  | inPlace => some 'i'
  | help => some 'h'
  | config | offset | json => none

def takesValue : Flag → Bool
  | language | config | offset | command => true
  | diff | json | inPlace | help => false

end Flag

inductive Topic where
  | run
  | inspect
  | languages
deriving DecidableEq, Repr

def Topic.flags : Topic → List Flag
  | run => [.language, .config, .offset, .command, .diff, .json, .inPlace, .help]
  | inspect => [.language, .offset, .help]
  | languages => [.help]

def Topic.ofName? (t : Text) : Option Topic :=
  if t = "run".toList then some .run
  else if t = "inspect".toList then some .inspect
  else if t = "languages".toList then some .languages
  else none

structure RunRequest where
  file : Text
  language : Option Text
  config : Option Text
  /-- Where point is before the first command. -/
  offset : Nat
  commands : List Text
  diff : Bool
  json : Bool
  inPlace : Bool
deriving DecidableEq, Repr

structure InspectRequest where
  file : Text
  language : Option Text
  offset : Nat
deriving DecidableEq, Repr

inductive Request where
  | run (r : RunRequest)
  | inspect (r : InspectRequest)
  | languages
  | version
  | help (topic : Option Topic)
deriving DecidableEq, Repr

/-- Why the reading of arguments stops. -/
inductive Stop where
  /-- An argument makes no sense. -/
  | rejected
  | help
deriving DecidableEq, Repr

/-- The options and the file read so far. -/
structure Draft where
  file : Option Text := none
  language : Option Text := none
  config : Option Text := none
  offset : Option Nat := none
  commands : List Text := []
  diff : Bool := false
  json : Bool := false
  inPlace : Bool := false

namespace Draft

/-- Sets what has not been set. -/
def once {α : Type} (old : Option α) (new : α) : Except Stop (Option α) :=
  if old.isSome then .error .rejected else .ok (some new)

/-- A path is not empty. -/
def path (t : Text) : Except Stop Text := if t.isEmpty then .error .rejected else .ok t

/-- An option with its value. Only commands can be given several times. -/
def setValue (d : Draft) (f : Flag) (v : Text) : Except Stop Draft := do
  match f with
  | .language => return { d with language := ← once d.language v }
  | .config => return { d with config := ← once d.config (← path v) }
  | .offset =>
    match Numeral.word? v with
    | some n => return { d with offset := ← once d.offset n }
    | none => .error .rejected
  | .command => return { d with commands := d.commands ++ [v] }
  | _ => .error .rejected

def setFlag (d : Draft) (f : Flag) : Except Stop Draft :=
  match f with
  | .diff => if d.diff then .error .rejected else .ok { d with diff := true }
  | .json => if d.json then .error .rejected else .ok { d with json := true }
  | .inPlace => if d.inPlace then .error .rejected else .ok { d with inPlace := true }
  | .help => .error .help
  | _ => .error .rejected

/-- An argument that is no option: the file, unless the subcommand has none. -/
def setFile (topic : Topic) (d : Draft) (t : Text) : Except Stop Draft := do
  if topic = .languages then .error .rejected
  else return { d with file := ← once d.file (← path t) }

/-- Options by letters. The last one may have its value right behind it, or wait for it. -/
def letters (topic : Topic) (d : Draft) : Text → Except Stop (Draft × Option Flag)
  | [] => .ok (d, none)
  | c :: cs =>
    match topic.flags.find? fun f => f.letter? == some c with
    | none => .error .rejected
    | some f =>
      if f.takesValue then
        if cs.isEmpty then .ok (d, some f)
        else do return (← d.setValue f (if cs.head? = some '=' then cs.tail else cs), none)
      else do letters topic (← d.setFlag f) cs

/-- An option by its long name, with its value behind `=` if there is one. -/
def longName (topic : Topic) (d : Draft) (t : Text) : Except Stop (Draft × Option Flag) :=
  let name := t.takeWhile (· != '=')
  match topic.flags.find? fun f => f.name == name with
  | none => .error .rejected
  | some f =>
    match t.drop name.length with
    | [] => if f.takesValue then .ok (d, some f) else do return (← d.setFlag f, none)
    | _ :: v => if f.takesValue then do return (← d.setValue f v, none) else .error .rejected

/-- The argument is an option, not a value: it starts with a dash and goes on behind it. -/
def looksLikeOption : Text → Bool
  | '-' :: _ :: _ => true
  | _ => false

/-- Reads arguments. `waiting` is an option whose value comes next. -/
def readAll (topic : Topic) (d : Draft) (waiting : Option Flag) : List Text → Except Stop Draft
  | [] => if waiting.isSome then .error .rejected else .ok d
  | t :: ts =>
    match waiting with
    | some f =>
      if looksLikeOption t then .error .rejected
      else do readAll topic (← d.setValue f t) none ts
    | none =>
      match t with
      | ['-', '-'] => ts.foldlM (setFile topic) d
      | '-' :: '-' :: name => do
        let (d, waiting) ← longName topic d name
        readAll topic d waiting ts
      | '-' :: c :: cs => do
        let (d, waiting) ← letters topic d (c :: cs)
        readAll topic d waiting ts
      | t => do readAll topic (← setFile topic d t) none ts

def request? (topic : Topic) (d : Draft) : Option Request :=
  match topic with
  | .languages => some .languages
  | .inspect => do return .inspect ⟨← d.file, d.language, ← d.offset⟩
  | .run => do
    let file ← d.file
    if d.json && d.diff then none
    else some (.run ⟨file, d.language, d.config, d.offset.getD 0, d.commands, d.diff, d.json,
      d.inPlace⟩)

end Draft

namespace Request

/-- Reads the arguments behind the name of a subcommand. -/
def ofTopic? (topic : Topic) (arguments : List Text) : Option Request :=
  match Draft.readAll topic {} none arguments with
  | .ok d => d.request? topic
  | .error .help => some (.help (some topic))
  | .error .rejected => none

/-- Reads the arguments of a call; `none` if they make no sense. -/
def parse? : List Text → Option Request
  | [] => none
  | t :: ts =>
    match t with
    | '-' :: 'h' :: _ => some (.help none)
    | '-' :: 'V' :: _ => some .version
    | _ =>
      if t = "--help".toList then some (.help none)
      else if t = "--version".toList then some .version
      else if t = "help".toList then
        match ts with
        | [] => some (.help none)
        | [topic] =>
          if topic = "help".toList then some (.help none)
          else (Topic.ofName? topic).map fun topic => .help (some topic)
        | _ => none
      else (Topic.ofName? t).bind fun topic => ofTopic? topic ts

end Request

end TreeEdit.Cli
