import Mismatch.Log.Event
import Mismatch.Trait.Key

/-!
# Queries

A query is answered with the help of remembered answers and may leave new ones behind; it also
reports on its progress. A search that goes deeper than its bound has no answer.
-/

namespace Mismatch

/-- Answers by the key of their goal, the latest first. -/
abbrev Cache := List (Key × Outcome)

/-- What queries hand on to the next one: remembered answers and reports, the latest first. -/
structure Memo where
  cache : Cache
  reports : List Log.Event

abbrev Query (α : Type) := StateT Memo Option α

namespace Query

/-- Reports an event. -/
def report (level : Log.Level) (module : Text) (message : Thunk Text) : Query Unit :=
  modify fun m => { m with reports := ⟨level, module, message⟩ :: m.reports }

/-- The answer remembered under a key. -/
def lookup (key : Key) : Query (Option Outcome) := return (← get).cache.lookup key

/-- Remembers an answer under its key. -/
def remember (key : Key) (outcome : Outcome) : Query Unit :=
  modify fun m => { m with cache := (key, outcome) :: m.cache }

/-- The search is too deep. -/
def giveUp {α : Type} : Query α := fun _ => none

end Query
end Mismatch
