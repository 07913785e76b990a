import Mismatch.Conversion

/-!
# Synthesis of fixes

All fixes of a mismatch: the conversions of the expression, then the changes of the signatures
around it. A signature is only changed to a type that can be written down.
-/

namespace Mismatch.Fixes

/-- The change of the return type of the function around the expression, unless it is declared
already. -/
def changeReturn (actual : Ty) (e : Expr) : List Candidate :=
  match e.returnSite with
  | none => []
  | some site =>
    if !site.declared.isMissing && site.declared.equiv actual then []
    else [.changeReturnType site.function actual]

/-- The change of the type of the binding that the expression initializes. -/
def changeLet (actual : Ty) (e : Expr) : List Candidate :=
  match e.letBinding with
  | none => []
  | some name => [.changeLetType name actual]

/-- The fixes of a mismatch, in the order in which they are offered. -/
def candidates (S : Solver) (expected actual : Ty) (e : Expr) : Query (List Candidate) := do
  let conversions ← if e.isExpression then Conversion.candidates S expected actual e else pure []
  let changes :=
    if actual.containsUnknownOrAnon then [] else changeReturn actual e ++ changeLet actual e
  let all := conversions ++ changes
  Query.report .debug "fix"
    (Text.join ["`", e.text, "`: ", Text.ofNat all.length, " candidate(s)"])
  return all

end Mismatch.Fixes
