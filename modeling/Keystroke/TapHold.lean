import Keystroke.Event

/-!
# Tap or hold

A tap-hold key stays pending from its press on. It becomes a tap when it is let go, and a hold when
the threshold passes or, if the policy says so, when another key is pressed. A tap lasts for one
cycle: the next poll ends it. The machine decides and its caller applies: each decision is handed
out as a `Resolution`, once to press an action and once to release it.
-/

namespace Keystroke

/-- What the press of another key does to a pending key. -/
inductive InterruptPolicy where
  | holdOnOtherKeyPress
  | timeoutOnly
  deriving DecidableEq, Repr

instance : Inhabited InterruptPolicy := ⟨.holdOnOtherKeyPress⟩

def InterruptPolicy.name : InterruptPolicy → String
  | .holdOnOtherKeyPress => "hold_on_other_key_press"
  | .timeoutOnly => "timeout_only"

/-- A decision the caller applies for one key. -/
inductive Resolution where
  | tapPressed (action : BasicAction)
  | tapReleased (action : BasicAction)
  | holdPressed (action : BasicAction)
  | holdReleased (action : BasicAction)
  deriving DecidableEq, Repr

namespace Resolution

/-- Whether an action is to be pressed or released. -/
def isPress : Resolution → Bool
  | tapPressed _ | holdPressed _ => true
  | tapReleased _ | holdReleased _ => false

/-- The action to be pressed or released. -/
def action : Resolution → BasicAction
  | tapPressed action | tapReleased action | holdPressed action | holdReleased action => action

end Resolution

namespace TapHold

/-- The state of one key. -/
inductive Phase where
  | idle
  /-- Pressed at `since` and not decided. -/
  | pending (since : Tick) (tap hold : BasicAction)
  /-- A tap that the next poll ends. -/
  | tapped (tap : BasicAction)
  /-- A hold that the release of the key ends. -/
  | held (hold : BasicAction)
  deriving DecidableEq, Repr

/-- The key waits for a decision. -/
def Phase.isPending : Phase → Bool
  | pending .. => true
  | _ => false

/-- A resolution of one key, together with what the log is told of it. -/
abbrev Fired := Logged (Key × Resolution)

/-- What a poll at `now` makes of a key: taps end, and keys pending for the threshold are held. -/
def Phase.poll (threshold : Tick) (now : Tick) (key : Key) : Phase → Phase × Option Fired
  | tapped tap => (idle, some ⟨(key, .tapReleased tap), []⟩)
  | pending since tap hold =>
    if threshold ≤ elapsed now since then
      (held hold, some ⟨(key, .holdPressed hold), [.holdTimedOut key hold]⟩)
    else (pending since tap hold, none)
  | phase => (phase, none)

/-- What the press of `presser` makes of a key: any other key that is pending is held. -/
def Phase.interrupt (presser : Key) (key : Key) : Phase → Phase × Option Fired
  | pending since tap hold =>
    if key = presser then (pending since tap hold, none)
    else (held hold, some ⟨(key, .holdPressed hold), [.holdInterrupted key hold presser]⟩)
  | phase => (phase, none)

/-- The tap-hold state of all keys. -/
structure Machine where
  threshold : Tick
  policy : InterruptPolicy
  phases : PerKey Phase
  deriving DecidableEq, Repr

namespace Machine

def new (threshold : Tick) (policy : InterruptPolicy) : Machine :=
  ⟨threshold, policy, Slots.fill .idle⟩

def reset (machine : Machine) : Machine := new machine.threshold machine.policy

/-- Some key waits for a decision. -/
def hasPending (machine : Machine) : Bool := machine.phases.toList.any Phase.isPending

/-- Starts a decision for a key pressed at `now`. -/
def start (machine : Machine) (key : Key) (tap hold : BasicAction) (now : Tick) :
    Logged Machine := do
  Logged.tell (.tapHoldPending key now)
  pure { machine with phases := machine.phases.set key (.pending now tap hold) }

/-- The release of a key. Nothing is decided for a key that is idle or already tapped. -/
def release (machine : Machine) (key : Key) : Logged (Machine × Option Resolution) :=
  match machine.phases[key] with
  | .pending _ tap _ => do
    Logged.tell (.resolvedTap key tap)
    pure ({ machine with phases := machine.phases.set key (.tapped tap) }, some (.tapPressed tap))
  | .held hold =>
    pure ({ machine with phases := machine.phases.set key .idle }, some (.holdReleased hold))
  | .idle | .tapped _ => pure (machine, none)

/-- Lets every key take a step of its own; the resolutions come in key order. -/
def stepAll (machine : Machine) (step : Key → Phase → Phase × Option Fired) :
    Machine × List Fired :=
  let results := Slots.ofFn fun key : Key => step key machine.phases[key]
  ({ machine with phases := results.map (·.1) }, results.toList.filterMap (·.2))

/-- The passing of time: ends the taps of the last cycle and holds the keys whose threshold has
passed. -/
def poll (machine : Machine) (now : Tick) : Machine × List Fired :=
  machine.stepAll (Phase.poll machine.threshold now)

/-- The press of a key: under the policy that says so, all other pending keys are held. -/
def interrupt (machine : Machine) (presser : Key) : Machine × List Fired :=
  match machine.policy with
  | .holdOnOtherKeyPress => machine.stepAll (Phase.interrupt presser)
  | .timeoutOnly => (machine, [])

end Machine

end TapHold

end Keystroke
