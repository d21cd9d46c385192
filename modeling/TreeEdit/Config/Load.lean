import TreeEdit.Config.Decode
import TreeEdit.Files
import TreeEdit.Toml.Document
/-!
# Loading configurations

A configuration is loaded from a text or from a file. Loading reads the
document, takes the settings from it and looks for issues.
-/

namespace TreeEdit

inductive ConfigError where
  | unreadable (path : Text) (cause : FileError)
  /-- The document is malformed, or a value has the wrong kind. -/
  | malformed (path : Option Text)
  | invalid (path : Option Text) (issues : List ConfigIssue)
  /-- The document is one that reading has no answer for. -/
  | fault
deriving DecidableEq, Repr

namespace ConfigError

def issueText (issues : List ConfigIssue) : Text := Text.join ['\n'] (issues.map (·.message))

/-- A path in brackets. -/
def place : Option Text → Text
  | none => []
  | some p => " (".toList ++ p ++ [')']

def message : ConfigError → Text
  | unreadable p c => "failed to read config from ".toList ++ p ++ ": ".toList ++ c.message.toList
  | malformed p => "failed to parse config TOML".toList ++ place p
  | invalid p is => "invalid config".toList ++ place p ++ ": ".toList ++ issueText is
  | fault => []

/-- What lies behind the error, in words. -/
def cause? : ConfigError → Option Text
  | unreadable _ c => some c.message.toList
  | malformed _ => none
  | fault => none
  | invalid _ is => some (issueText is)

end ConfigError

namespace Config

/-- Loads a configuration from a text, which came from a file if there is a path. -/
def load (path : Option Text) (t : Text) : Except ConfigError Config :=
  match Toml.read t with
  | .error .fault => .error .fault
  | .error .flaw => .error (.malformed path)
  | .ok es =>
    match ofEntries? es with
    | none => .error (.malformed path)
    | some c => if c.issues.isEmpty then .ok c else .error (.invalid path c.issues)

def loadFile (fs : Files) (path : Text) : Except ConfigError Config :=
  match fs.read path with
  | .error e => .error (.unreadable path e)
  | .ok t => load (some path) t

end Config

end TreeEdit
