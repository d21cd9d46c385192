import TreeEdit.Cli.Basic
import TreeEdit.Cli.Diff
import TreeEdit.Cli.Json
import TreeEdit.Cli.Request
import TreeEdit.Cli.Style
/-!
# Running commands on a file

A run makes everything ready (`prepare`), runs its commands (`execAll`) and
prints a result. Only then, and only in place, it writes the file (`writeBack`).
-/

namespace TreeEdit.Cli

/-! ## Preparing -/

def loadConfig (s : Setting) : Option Text → Except Ending Config
  | none => .ok Config.default
  | some path =>
    match Config.loadFile s.files path with
    | .ok c => .ok c
    | .error .fault => .error .fault
    | .error e => complain e.message e.cause?

/-- Reads the commands of a call; the first text that is none is reported. -/
def readCommands (ts : List Text) : Except Ending (List Command) :=
  ts.mapM fun t =>
    match Command.parse t with
    | .ok c => .ok c
    | .error e => complain ("invalid command '".toList ++ t ++ "'".toList) (some e.message)

/-- What a run works with. -/
structure Job where
  config : Config
  commands : List Command
  source : Text
  engine : Engine
deriving DecidableEq, Repr

/-- Makes everything ready for the first command. -/
def prepare (s : Setting) (r : RunRequest) : Except Ending Job := do
  let config ← loadConfig s r.config
  let language ← chooseLanguage r.language r.file config
  let config := { config with language := language }
  let commands ← readCommands r.commands
  let source ← readSource s r.file
  let engine ← openEngine config source
  let (modes, engine) := config.modes.handle s.parser .enterStructural (engine.setPoint r.offset)
  if modes.current ≠ .structural then
    complain ("configured transitions never reach structural mode from ".toList
      ++ modes.current.name.toList) none
  else
    return ⟨config, commands, source, engine⟩

/-! ## Running -/

def detail : CommandOutcome → Text
  | .moved m => "moved ".toList ++ m.print
  | .edited o => o.inspect
  | .answered b => (toString b).toList
  | .jumped p => "point ".toList ++ Numeral.print p

def outcomeLine (color : Bool) (c : Command) (o : CommandOutcome) : Text :=
  let mark := if o.succeeded then paint color .green ['✓'] else paint color .red ['✗']
  let words := if o.succeeded then detail o else paint color .dimmed (detail o)
  mark ++ [' '] ++ c.print ++ [':', ' '] ++ words ++ ['\n']

/-- Runs commands one after the other: what each of them did, and the engine afterwards, or the
failure of one. -/
def execAll (P : Parser) (e : Engine) :
    List Command → List (Command × CommandOutcome) × Except (Command × Failure) Engine
  | [] => ([], .ok e)
  | c :: cs =>
    match (Engine.execute P c).perform e with
    | (.error f, _) => ([], .error (c, f))
    | (.ok o, e) =>
      let (os, r) := execAll P e cs
      ((c, o) :: os, r)

/-- The text with the highlighted region reversed. -/
def highlighted (color : Bool) (t : Text) (region : Option Span) : Text :=
  match region.bind fun s => t.cut? s.start s.stop with
  | some (x, y, z) => x ++ paint color .reversed y ++ z ++ ['\n']
  | none => t ++ ['\n']

/-- The lines of both texts, with what became of them. -/
def diffText (color : Bool) (file old new : Text) : Text :=
  paint color .red ("--- ".toList ++ file) ++ ['\n']
    ++ paint color .green ("+++ ".toList ++ file) ++ ['\n']
    ++ (lineChanges (linesOf old) (linesOf new)).flatMap fun
      | .same l => ' ' :: withNewline l
      | .removed l => paint color .red ('-' :: withNewline l)
      | .added ls => ls.flatMap fun l => paint color .green ('+' :: withNewline l)

def report (r : RunRequest) (job : Job) (outcomes : List (Command × CommandOutcome))
    (current : Option NodeRef) (e : Engine) : JsonValue :=
  .object [("file", .string r.file), ("language", .string job.config.language),
    ("commands", .array (outcomes.map fun (c, o) =>
      .object (("command", .string c.print) :: JsonValue.outcomeMembers o))),
    ("point", .ofNat e.buffer.point),
    ("current", (current.map JsonValue.ofNodeRef).getD .null),
    ("changed", .bool (e.buffer.text != job.source)),
    ("text", .string e.buffer.text),
    ("kill_ring", .array (e.killRing.entries.map .string))]

/-- What a run prints as its result. -/
def resultText (s : Setting) (r : RunRequest) (job : Job)
    (outcomes : List (Command × CommandOutcome)) (current : Option NodeRef) (e : Engine) : Text :=
  if r.json then (report r job outcomes current e).print 0 ++ ['\n']
  else if r.diff then diffText s.color r.file job.source e.buffer.text
  else highlighted s.color e.buffer.text e.cursor.region

/-- Writes the text back if that was asked for and it has changed. How it is written is up to
`save`, which is given a path and a text. -/
def writeBack (save : Text → Text → Except FileError Files) (s : Setting) (r : RunRequest)
    (job : Job) (stdout stderr : Text) (e : Engine) : Outcome :=
  if r.inPlace && e.buffer.text != job.source then
    match save r.file e.buffer.text with
    | .ok files =>
      let note := paint s.color .green ['✓'] ++ " wrote ".toList ++ r.file ++ ['\n']
      ⟨0, stdout, stderr ++ note, files⟩
    | .error f =>
      let c : Complaint := ⟨"failed to write ".toList ++ r.file, some f.message.toList⟩
      ⟨1, stdout, stderr ++ c.report, s.files⟩
  else ⟨0, stdout, stderr, s.files⟩

/-- A run that writes with `save`. -/
def runWith (save : Text → Text → Except FileError Files) (s : Setting) (r : RunRequest) :
    Outcome :=
  match prepare s r with
  | .error e => e.outcome [] s.files
  | .ok job =>
    let (outcomes, result) := execAll s.parser job.engine job.commands
    let stderr := if r.json then [] else outcomes.flatMap fun (c, o) => outcomeLine s.color c o
    match result with
    | .error (c, .rejected e) =>
      let complaint := ⟨"'".toList ++ c.print ++ "' failed".toList, some e.message⟩
      Ending.outcome (.complaint complaint) stderr s.files
    | .error (_, .fault _) => Ending.outcome .fault stderr s.files
    | .ok e =>
      let (current, e) := e.current s.parser
      writeBack save s r job (resultText s r job outcomes current e) stderr e

def run (s : Setting) (r : RunRequest) : Outcome := runWith s.files.save s r

end TreeEdit.Cli
