import Mismatch.Log.Logger
import Mismatch.Proofs.Filter

/-!
# The fast path of a logger

A logger makes a coarse test of its own level before it asks its filter. The test loses nothing as
long as the level is at most the least threshold of the filter (`Logger.heedsFilter_iff`). Setting
the logger up and giving it a new filter both see to that. Setting the level does not: it replaces
the threshold of all modules that are not listed, but those of the listed ones may be lower. So the
fast path is exact unless the level was set after the last specification to one above the threshold
of some module (`Logger.heedsFilter_run_iff`).
-/

namespace Mismatch.Log.Logger

inductive Call where
  | setLevel (level : Level)
  | setFilter (spec : Text)
  | addSink (s : Sink)
  | clearSinks

def apply (l : Logger) : Call → Logger
  | .setLevel level => l.setLevel level
  | .setFilter spec => l.setFilter spec
  | .addSink s => l.addSink s
  | .clearSinks => l.clearSinks

/-- The logger after the calls, the first of the list first. -/
def run (l : Logger) (calls : List Call) : Logger := calls.foldl apply l

/-- The level that counts as set on its own after one more call: a new filter specification takes
account of all that was set before it. -/
def pending (level? : Option Level) : Call → Option Level
  | .setLevel level => some level
  | .setFilter _ => none
  | .addSink _ | .clearSinks => level?

/-- The level that was set last, unless a filter was specified after that. -/
def lastSet (calls : List Call) : Option Level := calls.foldl pending none

/-- Nothing that the filter accepts is rejected beforehand. -/
def HeedsFilter (l : Logger) : Prop :=
  ∀ level m, level ≠ .off → l.shouldLog level m = l.filter.shouldLog level m

/-- How the level of a logger is related to its filter, given the level that was set last. -/
structure Coupled (l : Logger) (level? : Option Level) : Prop where
  distinct : l.filter.Distinct
  le : level? = none → l.level ≤ l.filter.minLevel
  level_eq : ∀ level, level? = some level → l.level = level

variable {l : Logger} {level? : Option Level}

theorem heedsFilter_iff (h : l.filter.Distinct) : l.HeedsFilter ↔ l.level ≤ l.filter.minLevel := by
  constructor
  · intro hl
    obtain ⟨m, hm⟩ := Filter.exists_threshold_eq h
    by_cases hoff : l.filter.minLevel = .off
    · rw [hoff]
      exact Level.le_off l.level
    · have haccepts : l.filter.shouldLog l.filter.minLevel m = true :=
        decide_eq_true (hm ▸ Level.le_refl _)
      have hlogs := (hl l.filter.minLevel m hoff).trans haccepts
      simp only [shouldLog, Bool.and_eq_true, decide_eq_true_eq] at hlogs
      exact hlogs.1.1
  · intro hl level m hoff
    cases haccepts : l.filter.shouldLog level m with
    | false => rw [shouldLog, haccepts, Bool.and_false]
    | true =>
      have hlevel : l.level ≤ level :=
        Level.le_trans hl (Level.le_trans (l.filter.minLevel_le_threshold m)
          (of_decide_eq_true haccepts))
      simp [shouldLog, haccepts, hlevel, hoff]

theorem coupled_init (c : Config) (colors : Bool) : (init c colors).Coupled none := by
  simp only [init]
  split
  · refine ⟨Filter.distinct_uniform c.level, fun _ => ?_, fun _ h => nomatch h⟩
    exact Level.le_refl c.level
  · exact ⟨Filter.distinct_respec _ _, fun _ => Level.le_refl _, fun _ h => nomatch h⟩

/-- A call keeps the level and the filter coupled. -/
theorem Coupled.apply (h : l.Coupled level?) (c : Call) :
    (l.apply c).Coupled (pending level? c) := by
  cases c with
  | setLevel level =>
    exact ⟨h.distinct.setBase level, fun hnone => (nomatch hnone), fun _ => Option.some.inj⟩
  | setFilter spec =>
    refine ⟨Filter.distinct_respec _ _, fun _ => ?_, fun _ hsome => nomatch hsome⟩
    exact (Level.le_min_iff.1 (Level.le_refl _)).2
  | addSink s => exact ⟨h.distinct, h.le, h.level_eq⟩
  | clearSinks => exact ⟨h.distinct, h.le, h.level_eq⟩

theorem Coupled.run (h : l.Coupled level?) (calls : List Call) :
    (l.run calls).Coupled (calls.foldl pending level?) := by
  induction calls generalizing l level? with
  | nil => exact h
  | cons c calls ih => exact ih (h.apply c)

/-- The level is at most all thresholds unless it was set to one above some of them. -/
theorem Coupled.le_minLevel_iff (h : l.Coupled level?) :
    l.level ≤ l.filter.minLevel ↔
      ∀ level, level? = some level → ∀ m, level ≤ l.filter.threshold m := by
  simp only [← Filter.le_minLevel_iff_threshold h.distinct]
  cases level? with
  | none => simpa using h.le rfl
  | some level => simp [h.level_eq level rfl]

/-- After any calls to a logger that has been set up, its fast path is exact if and only if its
level is at most the least threshold of its filter, and this if and only if no module has a
threshold below the level that was set last, unless a filter was specified after that. -/
theorem heedsFilter_run_iff (c : Config) (colors : Bool) (calls : List Call) :
    (((init c colors).run calls).HeedsFilter ↔
      ((init c colors).run calls).level ≤ ((init c colors).run calls).filter.minLevel) ∧
    (((init c colors).run calls).HeedsFilter ↔ ∀ level, lastSet calls = some level →
      ∀ m, level ≤ ((init c colors).run calls).filter.threshold m) := by
  have h : ((init c colors).run calls).Coupled (lastSet calls) := (coupled_init c colors).run calls
  have hiff := heedsFilter_iff h.distinct
  exact ⟨hiff, hiff.trans h.le_minLevel_iff⟩

/-- A module that is heard in full is not heard any more when the level is set. -/
theorem not_heedsFilter_setLevel : ¬ ((init ⟨.warn, .text, "a=trace", false, false⟩ false).run
    [.setLevel .error]).HeedsFilter := by
  intro h
  have hinfo := h .info "a" (by decide)
  revert hinfo
  decide

end Mismatch.Log.Logger
