import Keystroke.Report
import Keystroke.Resolver
import Keystroke.Settings

/-!
# The engine

One `Engine.scan` per scan cycle: raw levels are debounced to edges, and `Engine.cycle` turns edges
into a report. A cycle first applies a config switch that is due, then lets time pass for the
tap-hold keys, then handles all releases and after them all presses, each in key order, and last
assembles the report from what is latched. Releases come first so that a press in the same cycle
cannot turn a tap-hold key that is already up into a hold.
-/

namespace Keystroke

/-- The state of an engine. -/
structure Engine where
  keymap : Keymap
  config : Config
  /-- The config to switch to at the start of the next cycle. -/
  pending : Option Config
  debouncer : Debouncer
  resolver : Resolver
  tapHold : TapHold.Machine
  assembler : Assembler
  deriving DecidableEq, Repr

/-- What one cycle hands to the transport. -/
structure Cycle where
  report : Report
  /-- The report differs from that of the cycle before. -/
  changed : Bool
  deriving DecidableEq, Repr

/-- Applies a decision of the tap-hold machine. -/
def Resolver.apply (resolver : Resolver) (key : Key) (resolution : Resolution) :
    Logged Resolver :=
  if resolution.isPress then resolver.press key resolution.action
  else do
    let (resolver, _) ← resolver.release key
    pure resolver

/-- Applies decisions in the order in which they were made. -/
def Resolver.applyAll (resolver : Resolver) (fired : List TapHold.Fired) : Logged Resolver :=
  fired.foldlM (fun resolver decision => do
    let (key, resolution) ← decision
    resolver.apply key resolution) resolver

namespace Engine

/-- An engine at rest; the only thing that can be wrong is the config to start with. -/
def new (keymap : Keymap) (settings : Settings) : Except IndexError Engine := do
  let config ← settings.initial
  pure {
    keymap
    config
    pending := none
    debouncer := Debouncer.new settings.debouncePolicy
    resolver := Resolver.new
    tapHold := TapHold.Machine.new settings.tapHoldTicks settings.interruptPolicy
    assembler := {} }

/-- Asks for a switch to `config` at the start of the next cycle. -/
def select (engine : Engine) (config : Config) : Engine := { engine with pending := some config }

/-- The active layers in order of precedence. -/
def layers (engine : Engine) : List Layer := engine.resolver.layers.order

/-- The report of the last cycle. -/
def lastReport (engine : Engine) : Report := engine.assembler.last

/-- What a key would resolve to if it were pressed now. -/
def lookup (engine : Engine) (key : Key) : Action :=
  engine.keymap.resolve engine.config engine.resolver.layers key

/-- Carries out a switch that is due. A switch to another config starts from the base layer with
nothing latched; debounced levels stay as they are. -/
def applyPending (engine : Engine) : Logged Engine :=
  match engine.pending with
  | none => pure engine
  | some config =>
    let engine := { engine with pending := none }
    if config = engine.config then pure engine
    else do
      Logged.tell (.configSwitched engine.config config)
      pure { engine with
        config
        resolver := { engine.resolver.reset with layers := {} }
        tapHold := engine.tapHold.reset }

/-- Lets time pass for the tap-hold keys. -/
def poll (engine : Engine) (now : Tick) : Logged Engine := do
  let (tapHold, fired) := engine.tapHold.poll now
  let resolver ← engine.resolver.applyAll fired
  pure { engine with tapHold, resolver }

/-- Handles the press of a key: it may decide other keys, and it is looked up after that. -/
def press (engine : Engine) (key : Key) (now : Tick) : Logged Engine := do
  let (tapHold, fired) := engine.tapHold.interrupt key
  let resolver ← engine.resolver.applyAll fired
  let (resolver, action) ← resolver.resolvePress engine.keymap engine.config key
  match action with
  | .basic _ => pure { engine with tapHold, resolver }
  | .tapHold tap hold => do
    let tapHold ← tapHold.start key tap hold now
    pure { engine with tapHold, resolver }

/-- Handles the release of a key: the tap-hold machine first, the latch otherwise. -/
def release (engine : Engine) (key : Key) : Logged Engine := do
  let (tapHold, resolution) ← engine.tapHold.release key
  match resolution with
  | some resolution => do
    let resolver ← (engine.resolver.keyUp key).apply key resolution
    pure { engine with tapHold, resolver }
  | none => do
    let (resolver, _) ← engine.resolver.resolveRelease key
    pure { engine with tapHold, resolver }

/-- Handles the release edges in key order. -/
def releaseAll (engine : Engine) (edges : Edges) : Logged Engine :=
  Key.all.foldlM (fun engine key =>
    if edges[key] = some .released then engine.release key else pure engine) engine

/-- Handles the press edges in key order. -/
def pressAll (engine : Engine) (edges : Edges) (now : Tick) : Logged Engine :=
  Key.all.foldlM (fun engine key =>
    if edges[key] = some .pressed then engine.press key now else pure engine) engine

/-- Takes over a config request of the cycle, which replaces an earlier one. -/
def collectRequest (engine : Engine) : Engine :=
  let (resolver, request) := engine.resolver.takeRequest
  { engine with resolver, pending := request <|> engine.pending }

/-- Assembles the report of the cycle from what is latched. -/
def assemble (engine : Engine) : Engine × Cycle :=
  let assembler := engine.resolver.emitting.foldl
    (fun assembler code => assembler.add (.emit code)) engine.assembler.start
  let (assembler, report) := assembler.finish
  ({ engine with assembler }, { report, changed := report ≠ engine.lastReport })

/-- One cycle on edges that are already debounced. -/
def cycle (engine : Engine) (edges : Edges) (now : Tick) : Logged (Engine × Cycle) := do
  let engine ← engine.applyPending
  let engine ← engine.poll now
  let engine ← engine.releaseAll edges
  let engine ← engine.pressAll edges now
  pure engine.collectRequest.assemble

/-- One cycle on raw levels. -/
def scan (engine : Engine) (levels : Levels) (now : Tick) : Logged (Engine × Cycle) := do
  let (debouncer, edges) ← engine.debouncer.sampleAll levels now
  { engine with debouncer }.cycle edges now

/-- What can be done to an engine. -/
inductive Input where
  | edges (edges : Edges) (now : Tick)
  | levels (levels : Levels) (now : Tick)
  | select (config : Config)
  deriving DecidableEq, Repr

/-- The state after one input, and the cycle it ran, if any. -/
def feed (engine : Engine) : Input → Logged (Engine × Option Cycle)
  | .edges edges now => do
    let (engine, cycle) ← engine.cycle edges now
    pure (engine, some cycle)
  | .levels levels now => do
    let (engine, cycle) ← engine.scan levels now
    pure (engine, some cycle)
  | .select config => pure (engine.select config, none)

/-- The state after a list of inputs. -/
def run (engine : Engine) (inputs : List Input) : Engine :=
  inputs.foldl (fun engine input => (engine.feed input).value.1) engine

end Engine

end Keystroke
