import Mismatch.Trait.Select
import Mismatch.Ty.Render

/-!
# Chains of dereferences

The types that an expression can be coerced through: its own type, then the type each further
dereference leads to. A reference leads to what it points to, any other type to the target that its
implementation of the dereference trait names. The chain ends where no dereference applies, where a
type comes up again, and where it has reached its greatest length.
-/

namespace Mismatch.Solver

/-- Where one dereference of a type leads. -/
def derefTarget (S : Solver) : Ty → Query (Option Ty)
  | .missing => return none
  | .ref _ t => return some t
  | t =>
    match S.table.known.derefTrait with
    | none => return none
    | some deref => return (← S.project ⟨t, deref, []⟩ "Target").toOption

/-- The types of the chain of `start` after `last`, at most `room` of them. The types up to `last`
are in `seen`. -/
def derefsAfter (S : Solver) (start : Ty) : (room : Nat) → (seen : List Ty) → (last : Ty) →
    Query (List Ty)
  | room, seen, last => do
    match ← S.derefTarget last with
    | none => return []
    | some next =>
      if seen.any (·.equiv next) then do
        Query.report .warn "traits"
          (Text.join ["deref chain of `", start.text, "` cycles back to `", next.text, "`"])
        return []
      else
        match room with
        | 0 => do
          Query.report .warn "traits"
            (Text.join ["deref chain of `", start.text, "` cut off at depth ",
              Text.ofNat (max S.bounds.maxDeref 1)])
          return []
        | room + 1 => return next :: (← derefsAfter S start room (next :: seen) next)

/-- The chain of dereferences of a type, which starts with the type itself. -/
def coercions (S : Solver) : Ty → Query (List Ty)
  | .missing => return [.missing]
  | t => do
    let chain := t :: (← S.derefsAfter t (max S.bounds.maxDeref 1 - 1) [t] t)
    Query.report .trace "traits"
      (Text.join ["coercion sequence of `", t.text, "` has ", Text.ofNat chain.length, " step(s)"])
    return chain

/-- The first of some types for which the goal can be answered. -/
def firstSelected (S : Solver) (g : Goal) : List Ty → Query (Option Goal)
  | [] => return none
  | t :: ts => do
    if ← S.canSelect (g.about t) then return some (g.about t) else firstSelected S g ts

/-- Whether the goal can be answered for its type or for one that this dereferences to. -/
def canSelectDeref (S : Solver) (g : Goal) : Query Bool := do
  return (← S.firstSelected g (← S.coercions g.self)).isSome

/-- The associated type for the first type in the chain of the goal's type that has an answer. -/
def projectDeref (S : Solver) (g : Goal) (name : Text) : Query (Except SelectionError Ty) := do
  match ← S.firstSelected g (← S.coercions g.self) with
  | none => return .error .noImpl
  | some g => S.project g name

end Mismatch.Solver
