import Mismatch.Format
import Mismatch.Log.Options
import Mismatch.Trait.Select

/-!
# Settings

The arguments that hold for every command, and the split of a command line into these and the rest.
-/

namespace Mismatch.Command

structure Settings where
  verbose : Bool
  colors : Bool
  format : Format
  maxDeref : Nat

def Settings.standard : Settings := ⟨false, true, .text, Bounds.standard.maxDeref⟩

/-- A positive number of at most 64 bits, in decimal. -/
def parseDepth? (t : Text) : Option Nat :=
  if t.isEmpty || !t.all Text.isDigit then none
  else
    let n := t.foldl (fun n b => 10 * n + (b - Text.byte '0').toNat) 0
    if 0 < n ∧ n < UInt64.size then some n else none

/-- A setting that one argument makes: the new settings, or the value that is refused. None, if the
argument is for the command. -/
def Settings.ofArg? (s : Settings) (arg : Text) : Option (Except Text Settings) :=
  if arg == "--verbose" then some (.ok { s with verbose := true })
  else if arg == "--no-color" then some (.ok { s with colors := false })
  else if arg == "--format=json" then some (.ok { s with format := .json })
  else if arg == "--format=text" then some (.ok { s with format := .text })
  else
    match Text.dropStart? "--max-deref-depth=" arg with
    | none => none
    | some value =>
      match parseDepth? value with
      | some depth => some (.ok { s with maxDeref := depth })
      | none => some (.error value)

/-- A command line without the arguments that hold for every command. The rest is refused together
with a value that is no depth. -/
structure CommandLine where
  settings : Settings
  rest : Except Text (List Text)

/-- Makes the settings of some arguments on top of the given ones. Logging options are left out;
the settings made before a refusal stay. -/
def CommandLine.ofArgs (s : Settings) : List Text → CommandLine
  | [] => ⟨s, .ok []⟩
  | arg :: args =>
    if (Log.LogOption.ofArg? arg).isSome then ofArgs s args
    else
      match s.ofArg? arg with
      | some (.ok s) => ofArgs s args
      | some (.error value) => ⟨s, .error value⟩
      | none =>
        let line := ofArgs s args
        ⟨line.settings, (arg :: ·) <$> line.rest⟩

end Mismatch.Command
