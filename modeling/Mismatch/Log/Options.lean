import Mismatch.Log.Logger

/-!
# Logging options

How the command line and the environment set up the logger. A level or filter in the arguments
takes precedence over the variable; among the arguments, a level that is named takes precedence over
the number of times that `v` is repeated, and the last of its kind counts.
-/

namespace Mismatch.Log

/-- An argument that is about logging. -/
inductive LogOption where
  | level (l : Level)
  | filter (spec : Text)
  | format (f : Format)
  | verbose (count : Nat)

namespace LogOption

/-- The number of times that `v` is repeated in an argument that consists of a hyphen and nothing
else but these, zero for any other. -/
def verbosity (arg : Text) : Nat :=
  match arg with
  | b :: v :: vs =>
    if b == Text.byte '-' && (v :: vs).all (· == Text.byte 'v') then vs.length + 1 else 0
  | _ => 0

/-- What an argument says about logging, if it does. -/
def ofArg? (arg : Text) : Option LogOption :=
  match Text.dropStart? "--log-level=" arg with
  | some l => some (.level (.ofText l))
  | none =>
    match Text.dropStart? "--log-filter=" arg with
    | some spec => some (.filter spec)
    | none =>
      match Text.dropStart? "--log-format=" arg with
      | some f => some (.format (if f == "json" || f == "JSON" then .json else .text))
      | none =>
        if arg == "-q" || arg == "--quiet" then some (.level .error)
        else if verbosity arg = 0 then none
        else some (.verbose (verbosity arg))

def level? : LogOption → Option Level
  | level l => some l
  | _ => none

def filter? : LogOption → Option Text
  | filter spec => some spec
  | _ => none

def format? : LogOption → Option Format
  | format f => some f
  | _ => none

def count : LogOption → Nat
  | verbose n => n
  | _ => 0

end LogOption

namespace Config

/-- The level for a number of repetitions. -/
def verboseLevel : Nat → Option Level
  | 0 => none
  | 1 => some .info
  | 2 => some .debug
  | _ => some .trace

/-- The configuration with a level or, if it has an equals sign or a comma, a filter. -/
def withVariable (c : Config) (spec : Text) : Config :=
  if spec.isEmpty then c
  else if spec.contains (Text.byte '=') || spec.contains (Text.byte ',') then
    { c with filterSpec := spec }
  else { c with level := .ofText spec }

/-- The configuration that the arguments and the variable ask for. -/
def ofArgs (args : List Text) (spec : Option Text) : Config :=
  let options := args.filterMap LogOption.ofArg?
  let format := (options.filterMap LogOption.format?).getLastD .text
  let filter := (options.filterMap LogOption.filter?).getLast?
  let level := (options.filterMap LogOption.level?).getLast? <|>
    verboseLevel ((options.map LogOption.count).foldl max 0)
  let c := { Config.standard with format := format }
  match level, filter with
  | none, none => c.withVariable (spec.getD [])
  | some l, none => { c with level := l }
  | none, some spec => { c with filterSpec := spec }
  | some l, some spec => { c with level := l, filterSpec := spec }

end Config
end Mismatch.Log
