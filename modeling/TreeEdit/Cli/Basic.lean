import TreeEdit.Config.Load
/-!
# Calls of the program

What a call works with and what it leaves behind, how it fails, and the steps
that every call on a source file starts with.
-/

namespace TreeEdit.Cli

/-- What a call leaves behind. -/
structure Outcome where
  status : Nat
  stdout : Text
  stderr : Text
  files : Files
deriving DecidableEq, Repr

structure Complaint where
  message : Text
  cause : Option Text
deriving DecidableEq, Repr

/-- How a call ends early. -/
inductive Ending where
  | complaint (c : Complaint)
  /-- A request without an answer. -/
  | fault
deriving DecidableEq, Repr

/-- Where a call takes place. -/
structure Setting where
  files : Files
  /-- Texts are printed in styles. -/
  color : Bool
  parser : Parser

/-- Every line of the text with four spaces in front. -/
def indented (t : Text) : Text :=
  Text.join ['\n'] (t.pieces.map fun l => "    ".toList ++ l)

def Complaint.report (c : Complaint) : Text :=
  "Error: ".toList ++ c.message ++ ['\n'] ++ match c.cause with
    | none => []
    | some t => "\nCaused by:\n".toList ++ indented t ++ ['\n']

/-- Fails with a message and what caused it, if anything did. -/
def complain {α : Type} (message : Text) (cause : Option Text) : Except Ending α :=
  .error (.complaint ⟨message, cause⟩)

/-- The outcome of a call that ended early, after printing `stderr`. -/
def Ending.outcome (e : Ending) (stderr : Text) (files : Files) : Outcome :=
  match e with
  | complaint c => ⟨1, [], stderr ++ c.report, files⟩
  | fault => ⟨101, [], stderr, files⟩

/-! ## Choosing the language -/

/-- What follows the last dot in the name of a file; `none` if nothing stands before that dot. -/
def extension? (path : Text) : Option Text :=
  match (Place.ofPath path).getLast? with
  | none => none
  | some name =>
    let ext := (name.reverse.takeWhile (· != '.')).reverse
    let stem := name.take (name.length - ext.length - 1)
    if ext.length = name.length ∨ stem.isEmpty ∨ name = ['.', '.'] then none else some ext

/-- The name of the language: the one asked for, else the extension of the file if it names
one, else the one of the configuration. -/
def chooseLanguage (asked : Option Text) (file : Text) (config : Config) : Except Ending Text :=
  match asked with
  | some name =>
    if (Language.ofName? name).isSome then .ok name
    else complain ("unsupported language: ".toList ++ name) none
  | none =>
    match (extension? file).filter fun e => (Language.ofName? e).isSome with
    | some e => .ok e
    | none => .ok config.language

/-! ## Opening the source file -/

def readSource (s : Setting) (file : Text) : Except Ending Text :=
  match s.files.read file with
  | .ok t => .ok t
  | .error e => complain ("failed to read ".toList ++ file) (some e.message.toList)

def openEngine (config : Config) (text : Text) : Except Ending Engine :=
  match config.engine? text .silent with
  | some e => .ok e
  | none => complain ("unsupported language: ".toList ++ config.language) none

end TreeEdit.Cli
