import Mismatch.Text.Basic

/-!
# The environment

What a run of the program learns from the machine: whether its messages go to a terminal, what the
terminal is, what is to be logged unless the arguments say so, the time, and the time zone. A
variable that is not set is absent.
-/

namespace Mismatch

/-- A time zone: by how many seconds its clocks are ahead of UTC. That may change with the seasons,
so it depends on the time, which is in seconds since the epoch. -/
structure Zone where
  ahead : Int → Int

def Zone.utc : Zone := ⟨fun _ => 0⟩

/-- The surroundings of a run. The time is in milliseconds since the epoch. -/
structure Environment where
  isTerminal : Bool
  term : Option Text
  logSpec : Option Text
  now : Int
  zone : Zone

/-- Whether the terminal has colours: there is one, it says which it is, and it is not dumb. -/
def Environment.hasColors (env : Environment) : Bool :=
  env.isTerminal &&
    match env.term with
    | none => false
    | some t => t != "dumb"

end Mismatch
