import Keystroke.Action
import Keystroke.Board.Text

/-!
# Actions as JSON

An action is written as a choice between variants: `"NoOp"`, or an object that names the variant and
holds its content. Codes go by their exact names, indices by number.
-/

namespace Keystroke

open Json

def KeyCode.read : Reader KeyCode := variant (KeyCode.all.map fun code => .plain code.name code)

def KeyCode.toJson (code : KeyCode) : Value := .string code.name

/-- Reads a chord from the list of its codes. -/
def Chord.read : Reader Chord := do
  let codes ← list KeyCode.read
  match Chord.ofCodes? codes with
  | some chord => pure chord
  | none => refuse (.chordLength codes.length)

def Chord.toJson (chord : Chord) : Value := .list (chord.codes.map KeyCode.toJson)

structure CombinedFields where
  other : Option Key := none
  normal : Option KeyCode := none
  joint : Option KeyCode := none

def CombinedFields.record : Record CombinedFields BasicAction where
  fields := [
    .slot "other" (·.other) (fun state key => { state with other := some key }) Key.read,
    .slot "normal" (·.normal) (fun state code => { state with normal := some code }) KeyCode.read,
    .slot "combined" (·.joint) (fun state code => { state with joint := some code }) KeyCode.read]
  start := {}
  finish state := do
    let other ← required "other" state.other
    let normal ← required "normal" state.normal
    let joint ← required "combined" state.joint
    pure (.combined other normal joint)

namespace BasicAction

def variants : List (Variant BasicAction) :=
  [.plain "NoOp" .noOp,
   .holding "Emit" .emit KeyCode.read,
   .holding "Chord" .chord Chord.read,
   ⟨"Combined", .holds CombinedFields.record.read⟩,
   .holding "LayerHold" .layerHold Layer.read,
   .holding "LayerToggle" .layerToggle Layer.read,
   .holding "ConfigSwitch" .configSwitch Config.read]

def read : Reader BasicAction := variant variants

def toJson : BasicAction → Value
  | noOp => .string "NoOp"
  | emit code => .object [("Emit", code.toJson)]
  | chord keys => .object [("Chord", keys.toJson)]
  | combined other normal joint =>
    .object [("Combined", .object [("other", .number other.val), ("normal", normal.toJson),
      ("combined", joint.toJson)])]
  | layerHold layer => .object [("LayerHold", .number layer.val)]
  | layerToggle layer => .object [("LayerToggle", .number layer.val)]
  | configSwitch config => .object [("ConfigSwitch", .number config.val)]

end BasicAction

/-- The halves of a tap-hold pair that are read so far. -/
structure PairFields where
  tap : Option BasicAction := none
  hold : Option BasicAction := none

def PairFields.record : Record PairFields Action where
  fields := [
    .slot "tap" (·.tap) (fun state action => { state with tap := some action }) BasicAction.read,
    .slot "hold" (·.hold) (fun state action => { state with hold := some action })
      BasicAction.read]
  start := {}
  finish state := do
    let tap ← required "tap" state.tap
    let hold ← required "hold" state.hold
    pure (.tapHold tap hold)

namespace Action

/-- The basic variant as a variant of an entry. -/
def ofBasicVariant (variant : Variant BasicAction) : Variant Action where
  name := variant.name
  content :=
    match variant.content with
    | .nothing action => .nothing (.basic action)
    | .holds content => .holds (Action.basic <$> content)

/-- The variants of an entry: those of a basic action, and the tap-hold pair. -/
def variants : List (Variant Action) :=
  BasicAction.variants.map ofBasicVariant ++ [⟨"TapHold", .holds PairFields.record.readList⟩]

def read : Reader Action := variant variants

def toJson : Action → Value
  | basic action => action.toJson
  | tapHold tap hold => .object [("TapHold", .list [tap.toJson, hold.toJson])]

end Action

end Keystroke
