import Keystroke.Action
import Keystroke.Clock

/-!
# The event log

Everything the engine tells the log is an `Event`; `Event.severity` and `Event.message` fix how it
reads. An operation that logs returns a `Logged` value: what it computes, and the events in the
order in which they happened. The log never influences a value, so statements about behaviour speak
of `Logged.value`, which the lemmas below push through sequencing and folds.
-/

namespace Keystroke

/-- How important an event is. -/
inductive Severity where
  | trace
  | debug
  | info
  | warn
  deriving DecidableEq, Repr

def Severity.tag : Severity → String
  | .trace => "TRACE"
  | .debug => "DEBUG"
  | .info => "INFO"
  | .warn => "WARN"

/-- An entry of a keymap, by its place. -/
structure Place where
  config : Config
  layer : Layer
  key : Key
  deriving DecidableEq, Repr

def Place.text (place : Place) : String :=
  "config " ++ toString place.config.val ++ " layer " ++ toString place.layer.val ++
    " key " ++ toString place.key.val

/-- Something the log is told. -/
inductive Event where
  | debounced (key : Key) (edge : Edge) (now : Tick)
  | layerActivated (layer : Layer) (depth : Nat)
  | layerDeactivated (layer : Layer) (depth : Nat)
  | pressedWhileLatched (key : Key) (action : BasicAction)
  | combined (key other : Key) (code : KeyCode)
  | tapHoldPending (key : Key) (now : Tick)
  | resolvedTap (key : Key) (action : BasicAction)
  | holdTimedOut (key : Key) (action : BasicAction)
  | holdInterrupted (key : Key) (action : BasicAction) (other : Key)
  | configSwitched (old new : Config)
  | emptyTarget (place : Place) (layer : Layer)
  | frame (now : Tick) (codes : List KeyCode)
  deriving DecidableEq, Repr

namespace Event

/-- The severity of an event. -/
def severity : Event → Severity
  | debounced .. => .trace
  | configSwitched .. => .info
  | emptyTarget .. => .warn
  | _ => .debug

def message : Event → String
  | debounced key edge now =>
    "key " ++ toString key.val ++ " debounced " ++ edge.text ++ " at tick " ++ toString now.toNat
  | layerActivated layer depth =>
    "layer " ++ toString layer.val ++ " activated (depth " ++ toString depth ++ ")"
  | layerDeactivated layer depth =>
    "layer " ++ toString layer.val ++ " deactivated (depth " ++ toString depth ++ ")"
  | pressedWhileLatched key action =>
    "key " ++ toString key.val ++ " pressed while " ++ action.label ++ " still latched"
  | combined key other code =>
    "key " ++ toString key.val ++ " combined with key " ++ toString other.val ++ ": " ++ code.name
  | tapHoldPending key now =>
    "key " ++ toString key.val ++ " tap-hold pending at tick " ++ toString now.toNat
  | resolvedTap key action =>
    "key " ++ toString key.val ++ " resolved as tap " ++ action.label
  | holdTimedOut key action =>
    "key " ++ toString key.val ++ " resolved as hold " ++ action.label ++ " on timeout"
  | holdInterrupted key action other =>
    "key " ++ toString key.val ++ " resolved as hold " ++ action.label ++ " by key " ++
      toString other.val
  | configSwitched old new =>
    "Switching config " ++ toString old.val ++ " -> " ++ toString new.val
  | emptyTarget place layer =>
    place.text ++ ": layer action targets empty layer " ++ toString layer.val
  | frame now codes =>
    "tick " ++ toString now.toNat ++ ": [" ++ ", ".intercalate (codes.map KeyCode.name) ++ "]"

/-- The line of an event in the log: its severity, then its wording. -/
def line (event : Event) : String := event.severity.tag ++ " " ++ event.message

end Event

/-- A value together with the events that led to it, oldest first. -/
structure Logged (α : Type) where
  value : α
  events : List Event := []
  deriving Repr

namespace Logged

instance : Monad Logged where
  pure a := ⟨a, []⟩
  bind x f :=
    let y := f x.value
    ⟨y.value, x.events ++ y.events⟩

/-- Tells the log one event. -/
def tell (event : Event) : Logged Unit := ⟨(), [event]⟩

variable {α β σ : Type}

@[simp] theorem value_pure (a : α) : (pure a : Logged α).value = a := rfl

@[simp] theorem events_pure (a : α) : (pure a : Logged α).events = [] := rfl

@[simp] theorem value_bind (x : Logged α) (f : α → Logged β) :
    (x >>= f).value = (f x.value).value := rfl

@[simp] theorem events_bind (x : Logged α) (f : α → Logged β) :
    (x >>= f).events = x.events ++ (f x.value).events := rfl

@[simp] theorem value_map (f : α → β) (x : Logged α) : (f <$> x).value = f x.value := rfl

theorem ext {x y : Logged α} (value : x.value = y.value) (events : x.events = y.events) :
    x = y := by
  cases x
  cases y
  cases value
  cases events
  rfl

instance : LawfulMonad Logged :=
  LawfulMonad.mk' Logged (fun x => ext rfl (List.append_nil x.events))
    (fun a f => ext rfl (List.nil_append (f a).events))
    (fun x f g => ext rfl (List.append_assoc x.events (f x.value).events _))

@[simp] theorem value_foldlM (f : σ → α → Logged σ) (s : σ) (l : List α) :
    (l.foldlM f s).value = l.foldl (fun s a => (f s a).value) s := by
  induction l generalizing s with
  | nil => rfl
  | cons a l ih => simp [List.foldlM_cons, ih]

/-- An event of a fold was told by one of its steps. -/
theorem exists_of_mem_events_foldlM {f : σ → α → Logged σ} {s : σ} {l : List α} {event : Event}
    (h : event ∈ (l.foldlM f s).events) :
    ∃ before a after, l = before ++ a :: after ∧
      event ∈ (f (before.foldl (fun s a => (f s a).value) s) a).events := by
  induction l generalizing s with
  | nil => exact absurd h List.not_mem_nil
  | cons a l ih =>
    rw [List.foldlM_cons, events_bind] at h
    rcases List.mem_append.mp h with h | h
    · exact ⟨[], a, l, rfl, h⟩
    · obtain ⟨before, b, after, hl, hb⟩ := ih h
      exact ⟨a :: before, b, after, by rw [hl]; rfl, hb⟩

end Logged

end Keystroke
