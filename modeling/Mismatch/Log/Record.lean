import Mismatch.Environment
import Mismatch.Log.Event
import Mismatch.Text.Json

/-!
# Log records

An event with the time at which it was reported, and how it is written: as a line for readers, with
the level in colour where the terminal has colours, or as a JSON object.
-/

namespace Mismatch.Log

/-- An event and its time in milliseconds since the epoch. -/
structure Record where
  event : Event
  time : Int

namespace Record

/-- A number in decimal, filled up with zeros on its left. -/
def padded (width : Nat) (n : Int) : Text := Text.padLeft width (Text.byte '0') (Text.ofInt n)

/-- The time of day in a zone, in hours, minutes, seconds and milliseconds. Seconds and milliseconds
split towards the epoch, so that before it the milliseconds are negative. -/
def clock (zone : Zone) (time : Int) : Text :=
  let seconds := time.tdiv 1000
  let s := (seconds + zone.ahead seconds) % 86400
  Text.join [padded 2 (s / 3600), ":", padded 2 (s / 60 % 60), ":", padded 2 (s % 60), ".",
    padded 3 (time.tmod 1000)]

/-- The style of a level on a terminal. -/
def style : Level → Text
  | .trace => 27 :: Text.ofString "[90m"
  | .debug => 27 :: Text.ofString "[36m"
  | .info => 27 :: Text.ofString "[32m"
  | .warn => 27 :: Text.ofString "[33m"
  | .error => 27 :: Text.ofString "[31m"
  | .fatal => 27 :: Text.ofString "[1;31m"
  | .off => []

/-- The record as a line for readers, without its end. -/
def text (r : Record) (zone : Zone) : Text :=
  Text.join [clock zone r.time, " ", Text.padRight 5 r.event.level.name, " [", r.event.module, "] ",
    r.event.message.get]

/-- The record as a line for readers with its level in colour. -/
def coloredText (r : Record) (zone : Zone) : Text :=
  Text.join [clock zone r.time, " ", style r.event.level, Text.padRight 5 r.event.level.name, [27],
    "[0m [", r.event.module, "] ", r.event.message.get]

/-- The characters of a message that are escaped in JSON. -/
def escapes : List (UInt8 × Text) :=
  [(Text.byte '"', "\\\""), (Text.byte '\\', "\\\\"), (10, "\\n"), (9, "\\t")]

def escapeByte (b : UInt8) : Text := (escapes.lookup b).getD [b]

/-- The record as a JSON object. -/
def json (r : Record) : Text :=
  Text.Json.object
    [Text.Json.member "ts" (Text.ofInt r.time),
      Text.Json.member "level" (Text.Json.quote r.event.level.name),
      Text.Json.member "module" (Text.Json.quote r.event.module),
      Text.Json.member "msg" (Text.Json.quote (r.event.message.get.flatMap escapeByte))]

end Record
end Mismatch.Log
