import Mismatch.Format
import Mismatch.Log.Filter
import Mismatch.Log.Record

/-!
# Loggers

A logger hands the records that pass its filter to its sinks. Its level is a first, coarse test
that is made before the filter is asked.
-/

namespace Mismatch.Log

/-- Where records go. A console writes them, with or without colours; a recorder keeps them under
its tag; a fan hands them on to several sinks. -/
inductive Sink where
  | console (colors : Bool) (format : Format)
  | null
  | recorder (tag : Text)
  | fan (sinks : List Sink)

/-- What a sink does: it writes to the console, keeps an event, or is told to flush. -/
inductive Effect where
  | printed (line : Text)
  | kept (tag : Text) (event : Event)
  | flushed (tag : Text)

namespace Sink

mutual

/-- What a sink does with a record. The console shows the time in the given zone. -/
def write (zone : Zone) (r : Record) : Sink → List Effect
  | console colors format =>
    match format, colors with
    | .json, _ => [.printed (r.json ++ [10])]
    | .text, false => [.printed (r.text zone ++ [10])]
    | .text, true => [.printed (r.coloredText zone ++ [10])]
  | null => []
  | recorder tag => [.kept tag r.event]
  | fan sinks => writeAll zone r sinks

def writeAll (zone : Zone) (r : Record) : List Sink → List Effect
  | [] => []
  | s :: ss => write zone r s ++ writeAll zone r ss

end

mutual

/-- What a sink does when it is told to flush. -/
def flush : Sink → List Effect
  | console .. => []
  | null => []
  | recorder tag => [.flushed tag]
  | fan sinks => flushAll sinks

def flushAll : List Sink → List Effect
  | [] => []
  | s :: ss => flush s ++ flushAll ss

end

end Sink

/-- How a logger is set up. -/
structure Config where
  level : Level
  format : Format
  filterSpec : Text
  console : Bool
  colors : Bool

/-- Warnings and worse go to the console. -/
def Config.standard : Config := ⟨.warn, .text, [], true, true⟩

structure Logger where
  level : Level
  filter : Filter
  sinks : List Sink

namespace Logger

/-- The logger that a configuration asks for. A filter that hears some module earlier than the
level says lowers the level. The console has colours if they are wanted and the terminal has them.
-/
def init (c : Config) (terminalColors : Bool) : Logger :=
  let filter := Filter.uniform c.level
  let sinks := if c.console then [.console (c.colors && terminalColors) c.format] else []
  if c.filterSpec.isEmpty then ⟨c.level, filter, sinks⟩
  else
    let filter := filter.respec c.filterSpec
    ⟨filter.minLevel, filter, sinks⟩

/-- The logger before it is set up: it hears warnings but has no sinks. Its filter alone would hear
more. -/
def idle : Logger := ⟨.warn, .uniform .info, []⟩

def addSink (l : Logger) (s : Sink) : Logger := { l with sinks := l.sinks ++ [s] }

def clearSinks (l : Logger) : Logger := { l with sinks := [] }

def setLevel (l : Logger) (level : Level) : Logger :=
  { l with level := level, filter := l.filter.setBase level }

/-- The logger with a new filter specification. Its level is lowered if need be, never raised. -/
def setFilter (l : Logger) (spec : Text) : Logger :=
  let filter := l.filter.respec spec
  { l with level := min l.level filter.minLevel, filter := filter }

/-- Whether an event of this level and module is passed on. Nothing is said at the level `off`. -/
def shouldLog (l : Logger) (level : Level) (module : Text) : Bool :=
  l.level ≤ level && level != .off && l.filter.shouldLog level module

/-- Passes a record to all sinks without a test. -/
def log (l : Logger) (zone : Zone) (r : Record) : List Effect := Sink.writeAll zone r l.sinks

/-- The events that are passed on. -/
def heard (l : Logger) (events : List Event) : List Event :=
  events.filter fun e => l.shouldLog e.level e.module

/-- Passes an event to all sinks if it should be logged. -/
def emit (l : Logger) (zone : Zone) (time : Int) (e : Event) : List Effect :=
  if l.shouldLog e.level e.module then l.log zone ⟨e, time⟩ else []

def flush (l : Logger) : List Effect := Sink.flushAll l.sinks

end Logger

/-- What is written to the console. -/
def Effect.console : Effect → Text
  | printed line => line
  | kept .. => []
  | flushed _ => []

end Mismatch.Log
