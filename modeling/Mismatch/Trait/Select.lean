import Mismatch.Trait.Match
import Mismatch.Trait.Query
import Mismatch.Trait.Table

/-!
# Selecting an implementation

A goal is answered by the one implementation whose header matches it and whose obligations hold;
with none there is no answer, with several the goal is ambiguous. Obligations are goals in turn. A
goal that comes up again while it is being solved fails as a cycle, and an answer that met a cycle
on the way is not remembered, because it may depend on the goals under which it was asked.
-/

namespace Mismatch

/-- The outcome of a search and whether a cycle was met in it. -/
structure Answer where
  outcome : Outcome
  metCycle : Bool

namespace Select

variable {m : Type → Type} [Monad m]

/-- Asks goals in turn up to the first that fails: whether all held and whether a cycle was met. -/
def holdAll (ask : Goal → m Answer) : List Goal → m (Bool × Bool)
  | [] => return (true, false)
  | g :: gs => do
    let a ← ask g
    match a.outcome with
    | .error _ => return (false, a.metCycle)
    | .ok _ => do
      let (holds, met) ← holdAll ask gs
      return (holds, a.metCycle || met)

/-- The implementations among `impls` that answer the goal, in their order, and whether a cycle was
met while their obligations were checked. -/
def survivors (ask : Goal → m Answer) (goal : Goal) : List Impl → m (List Selection × Bool)
  | [] => return ([], false)
  | i :: is =>
    match if i.header.trait == goal.trait then i.match? goal else none with
    | none => survivors ask goal is
    | some s => do
      let (holds, met) ← holdAll ask (i.obligations.map (·.subst s))
      let (more, metLater) ← survivors ask goal is
      return (if holds then ⟨i, s⟩ :: more else more, met || metLater)

/-- Exactly one survivor is selected. -/
def unique : List Selection → Outcome
  | [] => .error .noImpl
  | [s] => .ok s
  | _ => .error .ambiguous

/-- Solves a goal under the goals whose keys are on `stack`, at most `depth` goals deep. -/
def solve (T : TraitTable) : (depth : Nat) → (stack : List Key) → Goal → Query Answer
  | 0, _, _ => Query.giveUp
  | depth + 1, stack, goal =>
    match T.trait? goal.trait with
    | none => return ⟨.error .unknownTrait, false⟩
    | some _ => do
      let key := goal.key
      match ← Query.lookup key with
      | some outcome => return ⟨outcome, false⟩
      | none =>
        if stack.contains key then do
          Query.report .debug "traits" (Text.join ["cycle detected while solving ", key.text.get])
          return ⟨.error .cycle, true⟩
        else do
          let (found, met) ← survivors (solve T depth (key :: stack)) goal T.impls
          let outcome := unique found
          if !met then Query.remember key outcome
          Query.report .trace "traits" (Text.join [key.text.get, " => ", outcome.message])
          return ⟨outcome, met⟩

end Select

/-- The bounds of a search: how deep goals may lead to goals, and how long a chain of dereferences
may grow. -/
structure Bounds where
  depth : Nat
  maxDeref : Nat

/-- A chain of dereferences has at most 64 types. The bound on goals only makes the search a total
function: no memory has an address for each of so many goals, so that every search that comes to an
end stays below it. -/
def Bounds.standard : Bounds := ⟨UInt64.size, 64⟩

/-- A table together with the bounds of the searches in it. -/
structure Solver where
  table : TraitTable
  bounds : Bounds

namespace Solver

/-- Answers a goal. -/
def select (S : Solver) (g : Goal) : Query Outcome := do
  return (← Select.solve S.table S.bounds.depth [] g).outcome

/-- Whether exactly one implementation answers the goal. -/
def canSelect (S : Solver) (g : Goal) : Query Bool := do
  match ← S.select g with
  | .ok _ => return true
  | .error _ => return false

/-- The associated type `name` of the implementation that answers the goal. -/
def project (S : Solver) (g : Goal) (name : Text) : Query (Except SelectionError Ty) :=
  match S.table.trait? g.trait with
  | none => return .error .unknownTrait
  | some d =>
    if d.hasAssoc name then do
      match ← S.select g with
      | .error e => return .error e
      | .ok found =>
        match found.impl.assoc.lookup name with
        | none => return .error .noSuchAssoc
        | some t => return .ok (t.subst found.subst)
    else return .error .noSuchAssoc

end Solver
end Mismatch
