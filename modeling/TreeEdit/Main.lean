import TreeEdit.Cli.Program
import TreeEdit.Tree.Listing
/-!
# The executable

Reads the files that a call names, answers the call, prints, and writes the one
file that may have changed. Syntax trees come from a parser outside: it leaves
its answers for `FILE` as a listing in `FILE.trees`.
-/

namespace TreeEdit.Cli

def Request.paths : Request → List Text
  | .run r => r.file :: r.config.toList
  | .inspect r => [r.file]
  | _ => []

def Request.source? : Request → Option Text
  | .run r => some r.file
  | .inspect r => some r.file
  | _ => none

/-- What is known of a path after an attempt to read it: a file, a directory with an entry for
itself, a file in the place of a directory, or nothing. -/
def readPath (path : Text) : IO Files := do
  let place := Place.ofPath path
  try
    let content ← IO.FS.readBinFile (String.ofList path)
    return [(place, content.toList)]
  catch
    | .inappropriateType _ code _ =>
      return if code == 21 then [(place ++ [['.']], [])] else [(place.dropLast, [])]
    | _ => return []

/-- The parser whose answers lie beside a source file. -/
def readParser (path : Text) : IO Parser := do
  match ← readPath (path ++ ".trees".toList) with
  | [(_, content)] =>
    return ((Text.ofBytes? content).bind Parser.ofListing?).getD (Parser.ofTrees [])
  | _ => return Parser.ofTrees []

/-- Replaces the content of a file at once. -/
def replaceFile (path : Text) (content : List UInt8) : IO Unit := do
  let temporary := String.ofList path ++ ".tmp"
  IO.FS.writeBinFile temporary (ByteArray.mk content.toArray)
  IO.FS.rename temporary (String.ofList path)

/-- Answers a call and makes its outcome real. -/
def perform (arguments : List Text) : IO UInt32 := do
  let request := Request.parse? arguments
  let paths := (request.map Request.paths).getD []
  let files ← paths.foldlM (fun fs p => do return fs ++ (← readPath p)) []
  let parser ← match request.bind Request.source? with
    | some path => readParser path
    | none => pure (Parser.ofTrees [])
  let stdout ← IO.getStdout
  let color := (← stdout.isTty) && (← IO.getEnv "NO_COLOR").isNone
  let outcome := call ⟨files, color, parser⟩ arguments
  if let some path := request.bind Request.source? then
    let place := Place.ofPath path
    if let some content := outcome.files.content? place then
      if files.content? place != some content then
        replaceFile path content
  IO.print (String.ofList outcome.stdout)
  IO.eprint (String.ofList outcome.stderr)
  return outcome.status.toUInt32

end TreeEdit.Cli

def main (arguments : List String) : IO UInt32 :=
  TreeEdit.Cli.perform (arguments.map String.toList)
