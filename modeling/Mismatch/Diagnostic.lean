import Mismatch.Annotation
import Mismatch.Fixes
import Mismatch.Ty.Collision

/-!
# Diagnostics

The errors that can be diagnosed. Each has a code and is prepared for display as an annotation;
only a type mismatch comes with fixes.
-/

namespace Mismatch

/-- What is called with the wrong number of arguments. -/
inductive CalleeKind where
  | function | variadic | closure
deriving DecidableEq

/-- The error code for a wrong number of arguments. -/
def CalleeKind.code : CalleeKind → ErrorCode
  | .function => .e0061
  | .variadic => .e0060
  | .closure => .e0057

/-- An error in a program. A type mismatch may have no expression to mend, and may carry a
description that was written before the types were narrowed further. -/
inductive Diagnostic where
  | typeMismatch (expr : Option Expr) (expected actual : Ty) (captured : Option Text)
  | derefOfValue (t : Ty)
  | privateAccess (code : ErrorCode) (itemKind name : Text)
  | privateField (field struct : Text) (inLiteral : Bool)
  | castToBool (exprText : Text)
  | argumentCount (callee : CalleeKind) (expected actual : Nat)
  | unsafeOperation (message : Text)
  | nonExhaustiveMatch (missing : List Text)
  | assignToImmutable (what : Text)
  | missingReturnValue

namespace Diagnostic

/-- A mismatch of an expression. Where inference variables occur its description is written at
once, because they are shown differently once they are narrowed. -/
def mismatch (e : Expr) (expected actual : Ty) : Diagnostic :=
  let captured :=
    if expected.containsInfer || actual.containsInfer then
      some (Ty.expectedFound expected actual)
    else none
  .typeMismatch (some e) expected actual captured

def code : Diagnostic → ErrorCode
  | typeMismatch .. => .e0308
  | derefOfValue _ => .e0614
  | privateAccess c _ _ => c
  | privateField _ _ inLiteral => if inLiteral then .e0451 else .e0616
  | castToBool _ => .e0054
  | argumentCount callee _ _ => callee.code
  | unsafeOperation _ => .e0133
  | nonExhaustiveMatch _ => .e0004
  | assignToImmutable _ => .e0594
  | missingReturnValue => .e0069

/-- The description that was written when the error was found. -/
def captured? : Diagnostic → Option Text
  | typeMismatch _ _ _ captured => captured
  | _ => none

/-- A number of parameters in words. -/
def parameters (n : Nat) : Text :=
  Text.join [Text.ofNat n, if n = 1 then " parameter" else " parameters"]

def header : Diagnostic → Text
  | typeMismatch .. => "mismatched types"
  | derefOfValue t => Text.join ["type `", Ty.clearText t, "` cannot be dereferenced"]
  | privateAccess _ kind name => Text.join [kind, " `", name, "` is private"]
  | privateField field struct _ =>
    Text.join ["Field `", field, "` of struct `", struct, "` is private"]
  | castToBool _ => "It is not allowed to cast to a bool."
  | argumentCount callee expected actual =>
    Text.join ["This function takes", if callee = .variadic then " at least " else " ",
      parameters expected, " but ", parameters actual, if actual = 1 then " was" else " were",
      " supplied"]
  | unsafeOperation message => message
  | nonExhaustiveMatch _ => "Match must be exhaustive"
  | assignToImmutable what => "Cannot assign to " ++ what
  | missingReturnValue => "`return;` in a function whose return type is not `()`"

def description : Diagnostic → Text
  | typeMismatch _ expected actual captured =>
    captured.getD (Ty.expectedFound expected actual)
  | castToBool exprText =>
    if exprText.isEmpty then [] else
      Text.join ["compare with zero instead: `", exprText, " != 0`"]
  | nonExhaustiveMatch missing =>
    if missing.isEmpty then [] else
      "patterns not covered: " ++
        Text.joinWith ", " (missing.map fun p => Text.join ["`", p, "`"])
  | _ => []

/-- The fixes that are offered. -/
def fixes (S : Solver) : Diagnostic → Query (List Candidate)
  | typeMismatch (some e) expected actual _ => Fixes.candidates S expected actual e
  | _ => return []

/-- The annotation that shows the error. -/
def prepare (S : Solver) (d : Diagnostic) : Query Annotation := do
  let a : Annotation := ⟨.error, some d.code, d.header, d.description, ← d.fixes S⟩
  Query.report .debug "diag"
    (Text.join [a.simpleHeader, " with ", Text.ofNat a.fixes.length, " fix(es)"])
  return a

end Diagnostic
end Mismatch
