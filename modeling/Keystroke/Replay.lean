import Keystroke.Engine
import Keystroke.Trace

/-!
# Replay

A trace is played through an engine tick by tick from 0 on. Before each scan the levels recorded up
to that tick are taken over, and a frame is kept whenever the report changes.
-/

namespace Keystroke

/-- The state after a cycle whose report changed. -/
structure Frame where
  tick : Tick
  config : Config
  /-- The active layers in order of precedence. -/
  layers : List Layer
  codes : List KeyCode
  deriving DecidableEq, Repr

/-- A replay between two ticks. -/
structure Playback where
  engine : Engine
  levels : Levels
  /-- The events that are not due yet. -/
  rest : List TraceEvent
  frames : Array Frame
  log : Array Event

namespace Playback

/-- A replay before its first tick. -/
def start (engine : Engine) (trace : Trace) : Playback where
  engine
  levels := Slots.fill false
  rest := trace.events
  frames := #[]
  log := #[]

/-- Takes over the level of one event. -/
def setLevel (levels : Levels) (event : TraceEvent) : Levels := levels.set event.key event.pressed

def step (playback : Playback) (now : Tick) : Playback :=
  let due := playback.rest.takeWhile (·.tick ≤ now)
  let levels := due.foldl setLevel playback.levels
  let scanned := playback.engine.scan levels now
  let engine := scanned.value.1
  let codes := scanned.value.2.report.codes
  let log := playback.log ++ scanned.events
  let rest := playback.rest.dropWhile (·.tick ≤ now)
  let played := { playback with engine, levels, rest, log }
  if scanned.value.2.changed then
    { played with
      frames := played.frames.push
        { tick := now, config := engine.config, layers := engine.layers, codes }
      log := played.log.push (.frame now codes) }
  else played

/-- Plays `count` ticks from `now` on. -/
def run (playback : Playback) (now : Tick) : Nat → Playback
  | 0 => playback
  | count + 1 => (playback.step now).run (now + 1) count

end Playback

/-- Plays a trace for every tick up to and including `last`: the engine after that, and the frames
where the report changed. -/
def replay (engine : Engine) (trace : Trace) (last : Tick) : Logged (Engine × List Frame) :=
  let played := (Playback.start engine trace).run 0 (last.toNat + 1)
  { value := (played.engine, played.frames.toList), events := played.log.toList }

end Keystroke
