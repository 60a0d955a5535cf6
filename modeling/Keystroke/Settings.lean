import Keystroke.Arguments
import Keystroke.Debounce
import Keystroke.TapHold

/-!
# Settings

Timing and policy of an engine, fixed for its lifetime. A source of settings (a document, the
command line) gives some of the five fields (`Settings.Given`) and has a default for the others,
from a list of its own. The command line is merged into the settings of a document flag by flag,
where a flag counts if its value comes from the words (`Settings.merge`).
-/

namespace Keystroke

def defaultDebounceSamples : UInt8 := 5

def defaultTapHoldTicks : Tick := 200

/-- Timing and policy of an engine. The defaults are those of a document. -/
structure Settings where
  /-- Consecutive samples a new level must be seen on. -/
  debounceSamples : UInt8 := defaultDebounceSamples
  /-- If present, debouncing goes by time and not by samples. -/
  debounceTicks : Option Tick := none
  /-- Ticks before a pending tap-hold key is held. -/
  tapHoldTicks : Tick := defaultTapHoldTicks
  interruptPolicy : InterruptPolicy := default
  /-- The keymap table in use at the start, not yet checked. -/
  initialConfig : UInt8 := 0
  deriving DecidableEq, Repr

namespace Settings

/-- How the engine debounces: by time if a time is set. -/
def debouncePolicy (settings : Settings) : DebouncePolicy :=
  match settings.debounceTicks with
  | some count => .ticks count
  | none => .samples settings.debounceSamples

/-- The config at the start, if there is one of that number. -/
def initial (settings : Settings) : Except IndexError Config :=
  Config.ofNat settings.initialConfig.toNat

/-- The settings that one source gives. -/
structure Given where
  debounceSamples : Option UInt8 := none
  /-- A source can give the absence of a time. -/
  debounceTicks : Option (Option Tick) := none
  tapHoldTicks : Option Tick := none
  interruptPolicy : Option InterruptPolicy := none
  initialConfig : Option UInt8 := none
  deriving DecidableEq, Repr

/-- The settings of a source: what it gives, and its defaults for the rest. -/
def Given.over (given : Given) (defaults : Settings) : Settings where
  debounceSamples := given.debounceSamples.getD defaults.debounceSamples
  debounceTicks := given.debounceTicks.getD defaults.debounceTicks
  tapHoldTicks := given.tapHoldTicks.getD defaults.tapHoldTicks
  interruptPolicy := given.interruptPolicy.getD defaults.interruptPolicy
  initialConfig := given.initialConfig.getD defaults.initialConfig

/-- Changes settings if the flag of a field is given on the command line. -/
def updateIfPresent (sources : Arguments.Sources) (name : String) (change : Settings → Settings)
    (settings : Settings) : Settings :=
  if sources name = some .commandLine then change settings else settings

/-- Overwrites the fields whose flags are given on the command line. Those that only have their
default there stay as they are. -/
def merge (settings cli : Settings) (sources : Arguments.Sources) : Settings :=
  settings
    |> updateIfPresent sources "debounce_samples" (fun settings =>
        { settings with debounceSamples := cli.debounceSamples })
    |> updateIfPresent sources "debounce_ticks" (fun settings =>
        { settings with debounceTicks := cli.debounceTicks })
    |> updateIfPresent sources "tap_hold_ticks" (fun settings =>
        { settings with tapHoldTicks := cli.tapHoldTicks })
    |> updateIfPresent sources "interrupt_policy" (fun settings =>
        { settings with interruptPolicy := cli.interruptPolicy })
    |> updateIfPresent sources "initial_config" (fun settings =>
        { settings with initialConfig := cli.initialConfig })

end Settings

end Keystroke
