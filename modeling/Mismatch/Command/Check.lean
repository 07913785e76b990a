import Mismatch.Annotation.Print
import Mismatch.Command.CheckOptions
import Mismatch.Command.Output
import Mismatch.Command.Settings
import Mismatch.Diagnostic
import Mismatch.Trait.Resolver
import Mismatch.Ty.Parse

/-!
# Checking two types

Reads the two types with the names of the standard library, and the one that the function around
the expression declares. Equivalent types match; for others the mismatch is diagnosed with the
standard implementations and printed with its fixes.
-/

namespace Mismatch.Command

/-- The complaint about a text that is no type, with a mark below the place. -/
def typeComplaint (which text : Text) (e : ParseError) : Text :=
  Text.lines [Text.join ["error: invalid ", which, " type: ", e.cause.message], "  | " ++ text,
    Text.join ["  | ", List.replicate e.offset (Text.byte ' '), "^"]]

/-- The types of a check. -/
structure CheckTypes where
  expected : Ty
  actual : Ty
  declared : Ty

/-- The first numbers of the inference variables of the actual type and of the declared type. They
keep the variables of the three types apart. -/
def actualIds : UInt32 := 65536

def declaredIds : UInt32 := 131072

/-- Reads a type of a check, or complains about it. -/
def readType (which text : Text) (firstId : UInt32) : Except Text Ty :=
  (Ty.parse Prelude.names text firstId).mapError (typeComplaint which text)

/-- Reads the types of a check. The declared one is missing where none is given. -/
def CheckTypes.read (o : CheckOptions) : Except Text CheckTypes := do
  let expected ← readType "expected" o.expected 0
  let actual ← readType "actual" o.actual actualIds
  let declared ← match o.returnSite with
    | some (_, some type) => readType "return" type declaredIds
    | _ => .ok .missing
  return ⟨expected, actual, declared⟩

/-- The expression that the options describe. -/
def CheckOptions.expr (o : CheckOptions) (declared : Ty) : Expr :=
  ⟨o.text, o.isExpression, o.mutablePlace, o.letBinding,
    o.returnSite.map fun site => ⟨site.1, declared⟩⟩

/-- The details of a diagnosed mismatch: the chain of the actual type and the types at the ends of
the paths among the fixes. -/
def details (chain : List Ty) (fixes : List Candidate) : Text :=
  let bridged := fixes.filterMap fun c => (c.path?.map (·.apply chain)).filter (!·.isMissing)
  "  deref chain:" ++ Text.lines
    (chain.flatMap (fun t => Text.join [" `", t.text, "`"]) ::
      bridged.map fun t => Text.join ["  bridged type: `", t.text, "`"])

/-- What a check finds out about a mismatch: its annotation and, if details are wanted, the chain of
the actual type. -/
structure Finding where
  shown : Annotation
  chain : Option (List Ty)

/-- Diagnoses a mismatch of an expression. -/
def diagnose (types : CheckTypes) (e : Expr) (wanted : Bool) (S : Solver) : Query Finding := do
  let shown ← (Diagnostic.mismatch e types.expected types.actual).prepare S
  if wanted then return ⟨shown, some (← S.coercions types.actual)⟩ else return ⟨shown, none⟩

/-- Checks two types. -/
def check (env : Environment) (s : Settings) (l : Log.Logger) (o : CheckOptions) : Exit :=
  let r := (Resolver.empty Prelude.known).addPrelude
  let began := Output.logged l env [Resolver.preludeReport]
  match CheckTypes.read o with
  | .error complaint => ⟨2, began ++ .err complaint⟩
  | .ok types =>
    let began := began ++ Output.logged l env
      [⟨.info, "cli", Text.join ["checking `", types.actual.text, "` against `",
        types.expected.text, "`"]⟩]
    if types.expected.equiv types.actual then
      ⟨0, began ++ .out (Text.lines [Text.join ["types match: `", types.expected.text, "`"]])⟩
    else
      let bounds : Bounds := { Bounds.standard with maxDeref := s.maxDeref }
      let wanted := s.verbose && s.format == .text
      match r.ask bounds (diagnose types (o.expr types.declared) wanted) with
      | none => ⟨2, began ++ .err (Text.lines ["error: implementations nest too deep"])⟩
      | some (found, _, events) =>
        let text := found.shown.print s.format (s.colors && env.hasColors) o.text
        let more := match found.chain with
          | none => []
          | some chain => details chain found.shown.fixes
        ⟨1, began ++ Output.logged l env events ++ .out (text ++ more)⟩

end Mismatch.Command
