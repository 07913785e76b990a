import Mismatch.Command.Check
import Mismatch.Command.Explain

/-!
# The command line

A run sets up the logger, makes the settings, and hands the rest of the arguments to a command. The
exit code is 0 for success, 1 for a mismatch or an unknown code, and 2 for a command line that
cannot be carried out.
-/

namespace Mismatch.Command

def version : Text := "tyfix 0.3.1"

def usage : Text :=
  Text.lines
    [version,
      "",
      "Usage: tyfix <command> [options]",
      "",
      "Commands:",
      "  check     Diagnose a type mismatch and list candidate fixes",
      "  explain   Explain an error code",
      "  codes     List every error code with its documentation link",
      "",
      "Check options:",
      "  --expected <type>        Type the context requires",
      "  --actual <type>          Type the expression has",
      "  --text <expr>            Source text of the expression",
      "  --mutable                The expression is a mutable place",
      "  --pattern                The element is not an expression",
      "  --let <name>             The expression initializes `let name: T`",
      "  --return-of <fn>[:type]  The expression is returned from `fn`",
      "",
      "Options:",
      "  --help, -h               Show this help",
      "  --version, -V            Show version",
      "  --verbose                Show detailed output",
      "  --no-color               Disable colored output",
      "  --format=json            Print annotations as JSON",
      "  --max-deref-depth=<n>    Bound on deref chains (default 64)",
      "  --log-level=<level>      trace, debug, info, warn, error, off",
      "  --log-filter=<spec>      e.g. coerce=trace,*=warn",
      "  -v, -vv, -vvv, -q        Raise or lower log verbosity",
      "",
      "Environment:",
      "  TYFIX_LOG                Log level or filter when no flag is given"]

def checkUsage : Text :=
  Text.join ["Usage: tyfix check --expected <type> --actual <type> [--mutable]",
    " [--let <name>] [--return-of <fn>:<type>] [--text <expr>]"]

/-- Carries out a command with its arguments. -/
def dispatch (env : Environment) (s : Settings) (l : Log.Logger) (name : Text) (args : List Text) :
    Exit :=
  if name == "--help" || name == "-h" || name == "help" then ⟨0, .out usage⟩
  else if name == "--version" || name == "-V" then ⟨0, .out (Text.lines [version])⟩
  else if name == "check" then
    match CheckOptions.parse args with
    | .error e => ⟨2, .err (Text.lines ["error: " ++ e.message, checkUsage])⟩
    | .ok o => check env s l o
  else if name == "explain" then
    match args with
    | [] =>
      ⟨2, .err (Text.lines ["Usage: tyfix explain <error-code>", "Example: tyfix explain E0308"])⟩
    | code :: _ => explain env s code
  else if name == "codes" then listCodes
  else
    ⟨2, .err (Text.lines [Text.join ["error: unknown command `", name, "`"], []]) ++ .out usage⟩

/-- The result of a run: the settings that were in force at its end, and how it ended. -/
structure Run where
  settings : Settings
  exit : Exit

/-- A run with the given arguments. -/
def run (env : Environment) (args : List Text) : Run :=
  let l := Log.Logger.init (Log.Config.ofArgs args env.logSpec) env.hasColors
  let line := CommandLine.ofArgs .standard args
  match line.rest with
  | .error value =>
    ⟨line.settings, 2, .err (Text.lines
      [Text.join ["error: invalid value for --max-deref-depth: `", value, "`"]])⟩
  | .ok [] => ⟨line.settings, 0, .out usage⟩
  | .ok (name :: args) =>
    let began := Output.logged l env [⟨.debug, "cli", Text.join ["command `", name, "`"]⟩]
    let exit := dispatch env line.settings l name args
    ⟨line.settings, exit.code, began ++ exit.output⟩

end Mismatch.Command
