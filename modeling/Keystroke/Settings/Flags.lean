import Keystroke.Settings

/-!
# Settings on the command line

One flag for each field, with a default of its own if it has one (`Settings.flagDefaults`). A flag
that is given counts as given even if its value is the default, so that it wins over a settings file
(`Settings.Given.sources`).
-/

namespace Keystroke

open Arguments

def InterruptPolicy.flagWord : InterruptPolicy → String
  | .holdOnOtherKeyPress => "hold-on-other-key-press"
  | .timeoutOnly => "timeout-only"

/-- The policy of exactly this word. -/
def InterruptPolicy.ofFlagWord? (word : String) : Option InterruptPolicy :=
  [InterruptPolicy.holdOnOtherKeyPress, .timeoutOnly].find? (·.flagWord = word)

namespace Settings

def policyOfWord (word : String) : Except Fault InterruptPolicy :=
  match InterruptPolicy.ofFlagWord? word with
  | some policy => .ok policy
  | none => .error .notAllowed

/-- The flags for the five fields. -/
def flags : List (Flag Given) :=
  [{ long := "debounce-samples"
     effect := once (·.debounceSamples) (fun given n => { given with debounceSamples := some n })
       uint8 },
   { long := "debounce-ticks"
     effect := once (·.debounceTicks)
       (fun given n => { given with debounceTicks := some n }) (fun word => some <$> uint32 word) },
   { long := "tap-hold-ticks"
     effect := once (·.tapHoldTicks) (fun given n => { given with tapHoldTicks := some n })
       uint32 },
   { long := "interrupt-policy"
     effect := once (·.interruptPolicy)
       (fun given policy => { given with interruptPolicy := some policy }) policyOfWord },
   { long := "initial-config"
     effect := once (·.initialConfig) (fun given n => { given with initialConfig := some n })
       uint8 }]

/-- The defaults of the flags. That for the time of debouncing has none. -/
def flagDefaults : Settings where
  debounceSamples := defaultDebounceSamples
  debounceTicks := none
  tapHoldTicks := defaultTapHoldTicks
  interruptPolicy := .holdOnOtherKeyPress
  initialConfig := 0

/-- The settings of the command line. -/
def Given.filled (given : Given) : Settings := given.over flagDefaults

/-- Where the command line has its settings from. -/
def Given.sources (given : Given) : Sources
  | "debounce_samples" => some (.of given.debounceSamples)
  | "debounce_ticks" => given.debounceTicks.map fun _ => .commandLine
  | "tap_hold_ticks" => some (.of given.tapHoldTicks)
  | "interrupt_policy" => some (.of given.interruptPolicy)
  | "initial_config" => some (.of given.initialConfig)
  | _ => none

/-- The settings that arguments give, all of which are flags for settings. -/
def Given.ofArguments (words : List String) : Except Fault Given := readAll flags {} words

end Settings

end Keystroke
