import Keystroke.Json.Record
import Keystroke.Json.Value
import Keystroke.Settings

/-!
# Settings as JSON

A settings document gives any of the five fields, in any order and among unknown ones, or the first
fields as a list. What it does not give has the default of a document.
-/

namespace Keystroke

open Json

def DebouncePolicy.read : Reader DebouncePolicy :=
  variant [.holding "Samples" .samples uint8, .holding "Elapsed" .ticks uint32]

def DebouncePolicy.toJson : DebouncePolicy → Value
  | samples count => .object [("Samples", .number count.toNat)]
  | ticks count => .object [("Elapsed", .number count.toNat)]

def InterruptPolicy.all : List InterruptPolicy := [.holdOnOtherKeyPress, .timeoutOnly]

def InterruptPolicy.read : Reader InterruptPolicy :=
  variant (InterruptPolicy.all.map fun policy => .plain policy.name policy)

def InterruptPolicy.toJson (policy : InterruptPolicy) : Value := .string policy.name

namespace Settings

def Given.record : Record Given Given where
  fields := [
    .slot "debounce_samples" (·.debounceSamples)
      (fun given n => { given with debounceSamples := some n }) uint8,
    .slot "debounce_ticks" (·.debounceTicks)
      (fun given n => { given with debounceTicks := some n }) (optional uint32),
    .slot "tap_hold_ticks" (·.tapHoldTicks)
      (fun given n => { given with tapHoldTicks := some n }) uint32,
    .slot "interrupt_policy" (·.interruptPolicy)
      (fun given policy => { given with interruptPolicy := some policy }) InterruptPolicy.read,
    .slot "initial_config" (·.initialConfig)
      (fun given n => { given with initialConfig := some n }) uint8]
  start := {}
  finish := .ok

def Given.read : Reader Given := Given.record.read

/-- Writes settings, all five fields of them. -/
def toJson (settings : Settings) : Value :=
  .object [
    ("debounce_samples", .number settings.debounceSamples.toNat),
    ("debounce_ticks", (settings.debounceTicks.map fun n => .number n.toNat).getD .null),
    ("tap_hold_ticks", .number settings.tapHoldTicks.toNat),
    ("interrupt_policy", settings.interruptPolicy.toJson),
    ("initial_config", .number settings.initialConfig.toNat)]

/-- Why a text gives no settings. -/
inductive LoadError where
  | text (fault : Fault)
  /-- The config to start with is none of the board. -/
  | initialConfig (error : IndexError)
  deriving DecidableEq, Repr

/-- The settings that a text gives. Over the defaults they have to select a config of the board. -/
def Given.ofText (text : String) : Except LoadError Given :=
  match Json.read Given.read text.toList with
  | .error fault => .error (.text fault)
  | .ok given =>
    match (given.over {}).initial with
    | .error error => .error (.initialConfig error)
    | .ok _ => .ok given

/-- The settings of a text over the defaults. -/
def ofText (text : String) : Except LoadError Settings := do
  pure ((← Given.ofText text).over {})

end Settings

end Keystroke
