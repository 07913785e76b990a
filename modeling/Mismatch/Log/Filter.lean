import Mismatch.Log.Level

/-!
# Filters

A filter holds a threshold for all modules and thresholds of single modules that override it. It is
written as a list of tokens with commas between them: `module=level` sets a module's threshold,
`*=level` the one for all others, and a module alone is heard in full.
-/

namespace Mismatch.Log

/-- Thresholds. No module is listed twice. -/
structure Filter where
  base : Level
  modules : List (Text × Level)

namespace Filter

/-- The filter that hears every module from the same level on. -/
def uniform (base : Level) : Filter := ⟨base, []⟩

/-- The filter with another threshold for one module. -/
def setModule (f : Filter) (module : Text) (level : Level) : Filter :=
  { f with modules := (module, level) :: f.modules.filter fun e => e.1 != module }

def setBase (f : Filter) (level : Level) : Filter := { f with base := level }

/-- The filter after one token. What follows the first equals sign is a level. -/
def token (f : Filter) (t : Text) : Filter :=
  let module := t.takeWhile (· != Text.byte '=')
  match t.drop module.length with
  | [] => if module.isEmpty then f else f.setModule module .trace
  | _ :: level =>
    if module == "*" then f.setBase (.ofText level) else f.setModule module (.ofText level)

/-- The filter after it has been given a new specification: the thresholds of single modules are
forgotten first, the one for all others only changes if the specification says so. -/
def respec (f : Filter) (spec : Text) : Filter :=
  (spec.splitOn (Text.byte ',')).foldl token ⟨f.base, []⟩

/-- From which level on a module is heard. -/
def threshold (f : Filter) (module : Text) : Level := (f.modules.lookup module).getD f.base

def shouldLog (f : Filter) (level : Level) (module : Text) : Bool := f.threshold module ≤ level

/-- The lowest of the thresholds. -/
def minLevel (f : Filter) : Level := f.modules.foldl (fun m e => min m e.2) f.base

end Filter
end Mismatch.Log
