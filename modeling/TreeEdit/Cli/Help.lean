import TreeEdit.Cli.Request
/-!
# Help

The texts that explain the command line.
-/

namespace TreeEdit.Cli

def versionText : String := "treenav 0.1.0\n"

def overview : String :=
  "Structural navigation and editing over syntax trees\n\n" ++
  "Usage: treenav <COMMAND>\n\n" ++
  "Commands:\n" ++
  "  run        Run structural commands against a file\n" ++
  "  inspect    Show the node at an offset and its neighbourhood\n" ++
  "  languages  List supported languages\n" ++
  "  help       Print this message or the help of the given subcommand(s)\n\n" ++
  "Options:\n" ++
  "  -h, --help     Print help\n" ++
  "  -V, --version  Print version\n"

/-- The options of one subcommand. -/
def topicHelp : Topic → String
  | .run =>
    "Run structural commands against a file\n\n" ++
    "Usage: treenav run [OPTIONS] <FILE>\n\n" ++
    "Arguments:\n" ++
    "  <FILE>  \n\n" ++
    "Options:\n" ++
    "  -l, --lang <LANG>         Grammar to parse with (defaults to the file extension, then config)\n" ++
    "      --config <CONFIG>     Path to a TOML config file\n" ++
    "      --at <AT>             Byte offset to place point at before the first command [default: 0]\n" ++
    "  -c, --command <COMMANDS>  Command to run, e.g. \"next 2\" or \"delete\"; repeatable\n" ++
    "  -d, --diff                Show unified diff of changes instead of the resulting text\n" ++
    "      --json                Print a JSON report\n" ++
    "  -i, --in-place            Write the result back to the file\n" ++
    "  -h, --help                Print help\n"
  | .inspect =>
    "Show the node at an offset and its neighbourhood\n\n" ++
    "Usage: treenav inspect [OPTIONS] --at <AT> <FILE>\n\n" ++
    "Arguments:\n" ++
    "  <FILE>  \n\n" ++
    "Options:\n" ++
    "  -l, --lang <LANG>  \n" ++
    "      --at <AT>      \n" ++
    "  -h, --help         Print help\n"
  | .languages =>
    "List supported languages\n\n" ++
    "Usage: treenav languages\n\n" ++
    "Options:\n" ++
    "  -h, --help  Print help\n"

def helpText : Option Topic → String
  | none => overview
  | some t => topicHelp t

end TreeEdit.Cli
