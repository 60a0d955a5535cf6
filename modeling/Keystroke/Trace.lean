import Keystroke.Board
import Keystroke.Clock

/-!
# Traces

A trace is a recording of raw level changes. A key keeps its level until the next change of it.
Changes are in order of their ticks; those of one tick keep the order in which they were recorded.
-/

namespace Keystroke

/-- One recorded level of a key. -/
structure TraceEvent where
  tick : Tick
  key : Key
  /-- Raw electrical level; other than zero is closed. -/
  level : UInt8
  deriving DecidableEq, Repr

def TraceEvent.pressed (event : TraceEvent) : Bool := event.level ≠ 0

/-- A recording, in order of ticks. -/
structure Trace where
  events : List TraceEvent
  deriving DecidableEq, Repr

namespace Trace

/-- The trace of events that were recorded in any order. -/
def ofEvents (events : List TraceEvent) : Trace :=
  ⟨events.mergeSort fun event other => event.tick ≤ other.tick⟩

/-- The tick of the last event; 0 if there is none. -/
def lastTick (trace : Trace) : Tick := (trace.events.getLast?.map TraceEvent.tick).getD 0

end Trace

end Keystroke
