import Mismatch.Text.Basic

/-!
# Log levels

The levels of log messages in rising order. `off` is above all of them: it is the threshold that
nothing reaches.
-/

namespace Mismatch.Log

inductive Level where
  | trace | debug | info | warn | error | fatal | off
deriving DecidableEq

namespace Level

def all : List Level := [.trace, .debug, .info, .warn, .error, .fatal, .off]

def rank : Level → Nat
  | .trace => 0
  | .debug => 1
  | .info => 2
  | .warn => 3
  | .error => 4
  | .fatal => 5
  | .off => 6

instance : LE Level := ⟨fun a b => a.rank ≤ b.rank⟩

instance (a b : Level) : Decidable (a ≤ b) := inferInstanceAs (Decidable (a.rank ≤ b.rank))

instance : Min Level := ⟨fun a b => if a ≤ b then a else b⟩

def name : Level → Text
  | .trace => "TRACE"
  | .debug => "DEBUG"
  | .info => "INFO"
  | .warn => "WARN"
  | .error => "ERROR"
  | .fatal => "FATAL"
  | .off => "OFF"

/-- The level that a text names in lower case or in upper case; any other text stands for `info`. -/
def ofText (t : Text) : Level :=
  (all.find? fun l => t == l.name || t == l.name.toLower).getD .info

end Level
end Mismatch.Log
