import TreeEdit.Cli.Help
import TreeEdit.Cli.Inspect
import TreeEdit.Cli.Run
/-!
# The program

The command line as a function: from the arguments and the files of a working
directory to an exit status, two printed texts and the files afterwards.
-/

namespace TreeEdit.Cli

def answer (s : Setting) : Request → Outcome
  | .run r => run s r
  | .inspect r => inspect s r
  | .languages => ⟨0, Language.all.flatMap fun l => l.title.toList ++ ['\n'], [], s.files⟩
  | .version => ⟨0, versionText.toList, [], s.files⟩
  | .help t => ⟨0, (helpText t).toList, [], s.files⟩

/-- A call of the program. Arguments that make no sense end it with status 2. -/
def call (s : Setting) (arguments : List Text) : Outcome :=
  match Request.parse? arguments with
  | some r => answer s r
  | none => ⟨2, [], overview.toList, s.files⟩

end TreeEdit.Cli
