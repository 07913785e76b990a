import Mismatch.Candidate

/-!
# Conversions

The standard conversions that turn the actual type into the expected one, asked for in a fixed
order. Between numeric types a cast is the only offer. `From` and `TryFrom` exclude each other, and
so do, after them, the conversion to an owned string, those to references and those to results. A
path of dereferences and references comes last.
-/

namespace Mismatch.Conversion

variable (S : Solver)

/-- The associated type `name` of a known trait. A trait that is unknown, or has no such type, is
passed over in silence. -/
def project (trait : Option Item) (self : Ty) (args : List Ty) (name : Text) (deref : Bool) :
    Query (Option Ty) :=
  match trait with
  | none => return none
  | some trait =>
    match S.table.trait? trait with
    | none => return none
    | some d =>
      if d.hasAssoc name then do
        let goal : Goal := ⟨self, trait, args⟩
        match ← if deref then S.projectDeref goal name else S.project goal name with
        | .ok t => return some t
        | .error e => do
          Query.report .trace "convert"
            (Text.join [trait.name, "::", name, " for `", self.text, "`: ", e.message])
          return none
      else return none

/-- Whether the expected type can be made from the actual one. -/
def fromApplies (expected actual : Ty) : Query Bool :=
  match S.table.known.fromTrait with
  | none => return false
  | some trait => S.canSelect ⟨expected, trait, [actual]⟩

/-- The error of trying to make `target` from the actual type. -/
def tryFromError (target actual : Ty) : Query (Option Ty) :=
  project S S.table.known.tryFromTrait target [actual] "Error" false

/-- The error of parsing a `target`, if the actual type dereferences to a string slice. -/
def fromStrError (target actual : Ty) : Query (Option Ty) := do
  match (← S.coercions actual).getLast? with
  | none => return none
  | some last =>
    if last.isStr then project S S.table.known.fromStrTrait target [] "Err" false else return none

/-- Whether the expected type is what owns the actual one. -/
def toOwnedMatches (expected actual : Ty) : Query Bool := do
  match ← project S S.table.known.toOwnedTrait actual [] "Owned" true with
  | none => return false
  | some owned => return expected.equiv owned

/-- Whether the actual type, or one that it dereferences to, has a known trait. -/
def reaches (trait : Option Item) (actual : Ty) (args : List Ty) : Query Bool :=
  match trait with
  | none => return false
  | some trait => S.canSelectDeref ⟨actual, trait, args⟩

/-- The candidate, if the condition holds. -/
def offer (b : Bool) (c : Candidate) : List Candidate := if b then [c] else []

/-- The conversion that makes the expected type, or tries to. -/
def makers (expected actual : Ty) : Query (List Candidate) := do
  if ← fromApplies S expected actual then return [.convertVia .fromValue expected .missing]
  else
    match ← tryFromError S expected actual with
    | some e => return [.convertVia .tryFrom expected e]
    | none => return []

/-- The conversion that parses the expected type. -/
def parsers (expected actual : Ty) : Query (List Candidate) := do
  match ← fromStrError S expected actual with
  | some e => return [.convertVia .fromStr expected e]
  | none => return []

/-- The conversions to a reference. A mutable one is only offered for a mutable place with nothing
but mutable references on the way. -/
def toReference (expected : Ty) (m : Mutability) (inner actual : Ty) (e : Expr) :
    Query (List Candidate) := do
  let known := S.table.known
  match m with
  | .immutable => do
    let borrow ← reaches S known.borrowTrait actual [inner]
    let asRef ← reaches S known.asRefTrait actual [inner]
    return offer borrow (.convertVia .borrow expected .missing) ++
      offer asRef (.convertVia .asRef expected .missing)
  | .mutable => do
    let change := offer actual.isSharedRef .changeRefToMutable
    if !e.mutablePlace then return change
    if (← S.coercions actual).any (·.isSharedRef) then return change
    let borrow ← reaches S known.borrowMutTrait actual [inner]
    let asMut ← reaches S known.asMutTrait actual [inner]
    return change ++ offer borrow (.convertVia .borrowMut expected .missing) ++
      offer asMut (.convertVia .asMut expected .missing)

/-- The conversions to a result whose value and error types are the given ones. -/
def toResult (ok err actual : Ty) : Query (List Candidate) := do
  let tried := match ← tryFromError S ok actual with
    | some e => offer (err.equiv e) (.convertAndUnpackVia .tryFrom ok e)
    | none => []
  let parsed := match ← fromStrError S ok actual with
    | some e => offer (err.equiv e) (.convertAndUnpackVia .fromStr ok e)
    | none => []
  return tried ++ parsed

/-- The conversions that depend on the form of the expected type: an owned string, a reference or a
result. -/
def byForm (expected actual : Ty) (e : Expr) : Query (List Candidate) := do
  let known := S.table.known
  let expectsString := match known.stringTy? with
    | some string => expected.equiv string
    | none => false
  let asString ←
    if expectsString then do
      if ← reaches S known.toStringTrait actual [] then pure true else pure actual.isNumericLike
    else pure false
  if asString then return [.convertVia .toText expected .missing]
  match expected with
  | .ref m inner => toReference S expected m inner actual e
  | .adt item [ok, err] =>
    if known.resultType == some item then toResult S ok err actual else return []
  | _ => return []

/-- The method that views an owned string as a slice, if a reference to one is expected. -/
def asSlice (expected actual : Ty) : List Candidate :=
  match S.table.known.stringTy? with
  | none => []
  | some string =>
    if actual.equiv string then
      match expected with
      | .ref .immutable (.prim .str) => [.toImmutableStr]
      | .ref .mutable (.prim .str) => [.toMutableStr]
      | _ => []
    else []

/-- The bridge by dereferences and references. -/
def bridge (expected actual : Ty) (e : Expr) : Query (List Candidate) := do
  match ← DerefPath.find S expected actual e with
  | some p => return [.derefRefBridge expected p]
  | none => return []

/-- All conversions from the actual to the expected type, in their order. -/
def candidates (expected actual : Ty) (e : Expr) : Query (List Candidate) := do
  if expected.isNumeric && actual.isNumericLike then do
    Query.report .debug "convert" "numeric mismatch, only a cast is offered"
    return [.asCast expected]
  else do
    let made ← makers S expected actual
    let parsed ← parsers S expected actual
    let owned := offer (← toOwnedMatches S expected actual)
      (.convertVia .toOwned expected .missing)
    let formed ← byForm S expected actual e
    let sliced := asSlice S expected actual
    let bridged ← bridge S expected actual e
    let all := made ++ parsed ++ owned ++ formed ++ sliced ++ bridged
    Query.report .debug "convert"
      (Text.join [Text.ofNat all.length, " conversion candidate(s) for `", actual.text, "` -> `",
        expected.text, "`"])
    return all

end Mismatch.Conversion
