import Mismatch.Command.Run
import Std.Time.Zoned.Database

/-!
# The program

The command line program: it takes its arguments and its surroundings from the machine, writes what
the run gives to the two streams and leaves with its exit code.
-/

namespace Mismatch

/-- The time zone of this machine, which is UTC where its rules cannot be read. -/
def Zone.current : IO Zone := do
  try
    let rules ← Std.Time.Database.defaultGetLocalZoneRules
    return ⟨fun seconds => (rules.timezoneAt
      (.ofSecondsSinceUnixEpoch (.ofInt seconds))).offset.second.val⟩
  catch _ => return .utc

/-- The surroundings of this process. -/
def Environment.current : IO Environment := do
  let terminal ← (← IO.getStderr).isTty
  let term ← IO.getEnv "TERM"
  let spec ← IO.getEnv "TYFIX_LOG"
  let now ← Std.Time.Timestamp.now
  let zone ← Zone.current
  return {
    isTerminal := terminal
    term := term.map Text.ofString
    logSpec := spec.map Text.ofString
    now := now.toMillisecondsSinceUnixEpoch.val
    zone := zone }

end Mismatch

def main (args : List String) : IO UInt32 := do
  let env ← Mismatch.Environment.current
  let r := Mismatch.Command.run env (args.map Mismatch.Text.ofString)
  (← IO.getStdout).write ⟨r.exit.output.stdout.toArray⟩
  (← IO.getStderr).write ⟨r.exit.output.stderr.toArray⟩
  return UInt32.ofNat r.exit.code
