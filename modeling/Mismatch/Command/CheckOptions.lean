import Mismatch.Text.Basic

/-!
# Options of a check

The arguments of the command that checks two types against each other. An option with a value is
written as two arguments or as one with an equals sign; the last value of an option counts.
-/

namespace Mismatch.Command

/-- The options that have a value. -/
inductive ValueOption where
  | expected | actual | text | letBinding | returnOf
deriving DecidableEq

namespace ValueOption

def all : List ValueOption := [.expected, .actual, .text, .letBinding, .returnOf]

def name : ValueOption → Text
  | .expected => "--expected"
  | .actual => "--actual"
  | .text => "--text"
  | .letBinding => "--let"
  | .returnOf => "--return-of"

/-- The value that an argument gives to the option behind an equals sign. -/
def joined? (o : ValueOption) (arg : Text) : Option Text := Text.dropStart? (o.name ++ "=") arg

end ValueOption

/-- Why arguments are refused. -/
inductive CheckError where
  | missingValue (o : ValueOption)
  | unexpected (arg : Text)
  | missingExpected
  | missingActual
  | missingFunction

def CheckError.message : CheckError → Text
  | .missingValue o => "missing value for " ++ o.name
  | .unexpected arg => Text.join ["unexpected argument `", arg, "`"]
  | .missingExpected => "missing --expected <type>"
  | .missingActual => "missing --actual <type>"
  | .missingFunction => "missing function name in --return-of"

/-- The arguments as they were given: two switches, and the values with the latest first. -/
structure Given where
  mutable : Bool
  pattern : Bool
  values : List (ValueOption × Text)

namespace Given

def none : Given := ⟨false, false, []⟩

def set (g : Given) (o : ValueOption) (value : Text) : Given :=
  { g with values := (o, value) :: g.values }

def get? (g : Given) (o : ValueOption) : Option Text := g.values.lookup o

/-- Reads arguments on top of those that are given already. -/
def read : List Text → Given → Except CheckError Given
  | [], g => .ok g
  | arg :: args, g =>
    if arg == "--mutable" then read args { g with mutable := true }
    else if arg == "--pattern" then read args { g with pattern := true }
    else
      match ValueOption.all.find? (·.name == arg) with
      | some o =>
        match args with
        | [] => .error (.missingValue o)
        | value :: args => read args (g.set o value)
      | .none =>
        match ValueOption.all.findSome? fun o => (o.joined? arg).map (o, ·) with
        | some (o, value) => read args (g.set o value)
        | .none => .error (.unexpected arg)

end Given

/-- What is to be checked. The types are still texts. A function may be given without the type that
it declares. -/
structure CheckOptions where
  expected : Text
  actual : Text
  text : Text
  mutablePlace : Bool
  isExpression : Bool
  letBinding : Option Text
  returnSite : Option (Text × Option Text)

namespace CheckOptions

/-- A function name and, behind the first colon, the type that the function declares. -/
def site (t : Text) : Except CheckError (Text × Option Text) :=
  let function := t.takeWhile (· != Text.byte ':')
  if function.isEmpty then .error .missingFunction
  else
    match t.drop function.length with
    | [] => .ok (function, none)
    | _ :: type => .ok (function, some type)

def ofGiven (g : Given) : Except CheckError CheckOptions :=
  match g.get? .expected, g.get? .actual with
  | none, _ => .error .missingExpected
  | some _, none => .error .missingActual
  | some expected, some actual => do
    let returnSite ← match g.get? .returnOf with
      | none => .ok none
      | some t => some <$> site t
    return {
      expected, actual, returnSite
      text := (g.get? .text).getD "expr"
      mutablePlace := g.mutable
      isExpression := !g.pattern
      letBinding := g.get? .letBinding }

/-- The options that the arguments stand for. -/
def parse (args : List Text) : Except CheckError CheckOptions := do
  ofGiven (← Given.read args .none)

end CheckOptions
end Mismatch.Command
