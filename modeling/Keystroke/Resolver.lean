import Keystroke.Keymap
import Keystroke.LayerStack

/-!
# Resolving key edges

The resolver turns key edges into actions and applies their effects on layers and configs. What a
key resolved to on its press is latched for that key, so that its release undoes exactly that
action even if the layers have changed in between. A layer is active while some key holds it or its
toggle is set; `Resolver.sync` brings the layer stack in line after either has changed.
-/

namespace Keystroke

/-- The entry of a key on the active layer of highest precedence that has one; transparent if none
has. -/
def Keymap.resolve (keymap : Keymap) (config : Config) (layers : LayerStack) (key : Key) : Action :=
  ((layers.order.map (keymap.lookup config · key)).find? (!·.isTransparent)).getD .noOp

/-- What the keys have applied so far. -/
structure Resolver where
  /-- The keys that are down, as the edges so far tell. -/
  down : PerKey Bool
  /-- The action each key applied on its press and has not undone. -/
  latched : PerKey (Option BasicAction)
  /-- How many keys hold each layer. -/
  holds : PerLayer Nat
  /-- The layers that are toggled on. -/
  toggled : PerLayer Bool
  /-- The config asked for last and not yet taken. -/
  request : Option Config
  layers : LayerStack
  deriving DecidableEq, Repr

namespace Resolver

/-- Nothing is pressed and only the base layer is active. -/
def new : Resolver where
  down := Slots.fill false
  latched := Slots.fill none
  holds := Slots.fill 0
  toggled := Slots.fill false
  request := none
  layers := {}

/-- A layer is wanted while some key holds it or its toggle is set. -/
def wants (resolver : Resolver) (layer : Layer) : Bool :=
  0 < resolver.holds[layer] || resolver.toggled[layer]

/-- Activates a layer that is wanted and deactivates one that is not. -/
def sync (resolver : Resolver) (layer : Layer) : Logged Resolver := do
  let (layers, _) ←
    if resolver.wants layer then resolver.layers.activate layer
    else resolver.layers.deactivate layer
  pure { resolver with layers }

/-- Undoes the action latched for a key, if any, and returns it. -/
def release (resolver : Resolver) (key : Key) : Logged (Resolver × Option BasicAction) :=
  match resolver.latched[key] with
  | none => pure (resolver, none)
  | some action => do
    let resolver := { resolver with latched := resolver.latched.set key none }
    match action with
    | .layerHold layer =>
      let holds := resolver.holds.set layer (resolver.holds[layer] - 1)
      let resolver := { resolver with holds }
      pure (← resolver.sync layer, some action)
    | _ => pure (resolver, some action)

/-- What an action comes down to at this moment: a combined action is the emission that the state
of its other key selects, any other action is itself. -/
def settle (resolver : Resolver) (key : Key) : BasicAction → Logged BasicAction
  | .combined other normal joint => do
    let code := if resolver.down[other] then joint else normal
    Logged.tell (.combined key other code)
    pure (.emit code)
  | action => pure action

/-- Applies the effect of an action on layers and on the config request. -/
def perform (resolver : Resolver) : BasicAction → Logged Resolver
  | .layerHold layer =>
    sync { resolver with holds := resolver.holds.set layer (resolver.holds[layer] + 1) } layer
  | .layerToggle layer =>
    sync { resolver with toggled := resolver.toggled.set layer !resolver.toggled[layer] } layer
  | .configSwitch config => pure { resolver with request := some config }
  | _ => pure resolver

/-- Undoes what a key still has latched before it is pressed anew. -/
def clearLatch (resolver : Resolver) (key : Key) : Logged Resolver :=
  match resolver.latched[key] with
  | none => pure resolver
  | some action => do
    Logged.tell (.pressedWhileLatched key action)
    let (resolver, _) ← resolver.release key
    pure resolver

/-- Applies an action for a key and latches what it came down to. -/
def press (resolver : Resolver) (key : Key) (action : BasicAction) : Logged Resolver := do
  let resolver ← resolver.clearLatch key
  let action ← resolver.settle key action
  let resolver ← resolver.perform action
  pure { resolver with latched := resolver.latched.set key (some action) }

/-- Notes the level of a key and nothing else. -/
def mark (resolver : Resolver) (key : Key) (level : Bool) : Resolver :=
  { resolver with down := resolver.down.set key level }

/-- Notes that a key is up and resolves nothing, for a release that is handled elsewhere. -/
def keyUp (resolver : Resolver) (key : Key) : Resolver := resolver.mark key false

/-- Resolves a press. An immediate action is applied; a tap-hold pair is left to the caller. -/
def resolvePress (resolver : Resolver) (keymap : Keymap) (config : Config) (key : Key) :
    Logged (Resolver × Action) := do
  let resolver := resolver.mark key true
  let action := keymap.resolve config resolver.layers key
  match action with
  | .basic basic => pure (← resolver.press key basic, action)
  | .tapHold _ _ => pure (resolver, action)

/-- Resolves a release: the latched action is undone and returned. -/
def resolveRelease (resolver : Resolver) (key : Key) :
    Logged (Resolver × Action) := do
  let (resolver, undone) ← (resolver.mark key false).release key
  pure (resolver, (undone.map Action.basic).getD .noOp)

def resolve (resolver : Resolver) (keymap : Keymap) (config : Config) (key : Key) :
    Edge → Logged (Resolver × Action)
  | .pressed => resolver.resolvePress keymap config key
  | .released => resolver.resolveRelease key

/-- The codes of all latched actions, in key order; repeats are kept. -/
def emitting (resolver : Resolver) : List KeyCode :=
  resolver.latched.toList.flatMap fun latch => (latch.map BasicAction.codes).getD []

/-- Hands over the config asked for since the last call. -/
def takeRequest (resolver : Resolver) : Resolver × Option Config :=
  ({ resolver with request := none }, resolver.request)

/-- Drops every latch, hold and toggle and the request. The keys that are down stay so, and the
layer stack is left to the caller. -/
def reset (resolver : Resolver) : Resolver :=
  { new with down := resolver.down, layers := resolver.layers }

end Resolver

end Keystroke
