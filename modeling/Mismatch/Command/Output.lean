import Mismatch.Environment
import Mismatch.Log.Logger

/-!
# Output of a run

What a run writes to its two streams, and its exit code. Reports that the logger lets through are
written to the error stream in their turn.
-/

namespace Mismatch.Command

structure Output where
  stdout : Text
  stderr : Text

namespace Output

def out (t : Text) : Output := ⟨t, []⟩

def err (t : Text) : Output := ⟨[], t⟩

instance : Append Output := ⟨fun a b => ⟨a.stdout ++ b.stdout, a.stderr ++ b.stderr⟩⟩

/-- What the logger writes about some events at the time of the run. -/
def logged (l : Log.Logger) (env : Environment) (events : List Log.Event) : Output :=
  err ((l.heard events).flatMap fun e => (l.log env.zone ⟨e, env.now⟩).flatMap (·.console))

end Output

/-- The result of a command. -/
structure Exit where
  code : Nat
  output : Output

end Mismatch.Command
