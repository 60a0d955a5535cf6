import Keystroke.Board
import Keystroke.KeyCode

/-!
# Actions

What an entry of a keymap does. A `BasicAction` takes effect at once when its key is pressed; an
`Action` is a basic action, or a tap-hold pair of two, so that tap-hold entries never nest.
-/

namespace Keystroke

/-- Two or three codes sent together by one key. -/
inductive Chord where
  | pair (first second : KeyCode)
  | triple (first second third : KeyCode)
  deriving DecidableEq, Repr

namespace Chord

def codes : Chord → List KeyCode
  | pair first second => [first, second]
  | triple first second third => [first, second, third]

/-- The chord of a list of two or three codes. -/
def ofCodes? : List KeyCode → Option Chord
  | [first, second] => some (pair first second)
  | [first, second, third] => some (triple first second third)
  | _ => none

@[simp] theorem ofCodes?_codes (chord : Chord) : ofCodes? chord.codes = some chord := by
  cases chord <;> rfl

/-- The names of the codes, joined by `+`. -/
def label (chord : Chord) : String := "+".intercalate (chord.codes.map KeyCode.name)

end Chord

/-- The most codes a chord can hold. -/
abbrev maxChordCodes : Nat := 3

/-- An action that takes effect at once when its key is pressed. -/
inductive BasicAction where
  /-- Transparent: the next active layer below decides. -/
  | noOp
  | emit (code : KeyCode)
  /-- All codes are pressed and released as one unit. -/
  | chord (keys : Chord)
  /-- Emits `joint` if the key `other` is down at press time, else `normal`. -/
  | combined (other : Key) (normal joint : KeyCode)
  /-- The layer is active while the key is held. -/
  | layerHold (layer : Layer)
  /-- The layer is turned on or off for good. -/
  | layerToggle (layer : Layer)
  /-- Selects another keymap table from the next cycle on. -/
  | configSwitch (config : Config)
  deriving DecidableEq, Repr

namespace BasicAction

/-- A transparent entry leaves the choice to the layers below. -/
def isTransparent (action : BasicAction) : Bool := action = noOp

/-- The codes an action puts in the report while it is latched. A combined action has none: it is
latched as the emission it came out as. -/
def codes : BasicAction → List KeyCode
  | emit code => [code]
  | chord keys => keys.codes
  | _ => []

/-- The layer that a layer action controls. -/
def layer? : BasicAction → Option Layer
  | layerHold layer | layerToggle layer => some layer
  | _ => none

/-- The short text that stands for an action in grids and in the log. -/
def label : BasicAction → String
  | noOp => "_"
  | emit code => code.name
  | chord keys => keys.label
  | combined other normal joint =>
    normal.name ++ "|" ++ joint.name ++ "@" ++ toString other.val
  | layerHold layer => "MO(" ++ toString layer.val ++ ")"
  | layerToggle layer => "TG(" ++ toString layer.val ++ ")"
  | configSwitch config => "CFG(" ++ toString config.val ++ ")"

end BasicAction

/-- An entry of a keymap. -/
inductive Action where
  | basic (action : BasicAction)
  /-- `tap` if the key is let go soon enough, else `hold`. -/
  | tapHold (tap hold : BasicAction)
  deriving DecidableEq, Repr

namespace Action

/-- The entry that leaves the choice to the layers below. -/
abbrev noOp : Action := basic .noOp

/-- The entry that emits one code. -/
abbrev emit (code : KeyCode) : Action := basic (.emit code)

/-- A transparent entry leaves the choice to the layers below. -/
def isTransparent (action : Action) : Bool := action = noOp

/-- The immediate form of an entry; a tap-hold pair has none. -/
def basic? : Action → Option BasicAction
  | basic action => some action
  | tapHold _ _ => none

/-- The basic actions an entry is made of: itself, or the two halves of a pair. -/
def parts : Action → List BasicAction
  | basic action => [action]
  | tapHold tap hold => [tap, hold]

/-- The short text of an entry; the halves of a pair are joined by `/`. -/
def label : Action → String
  | basic action => action.label
  | tapHold tap hold => tap.label ++ "/" ++ hold.label

end Action

end Keystroke
