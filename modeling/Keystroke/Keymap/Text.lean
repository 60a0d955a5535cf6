import Keystroke.Action.Text
import Keystroke.Keymap.Document

/-!
# Keymap documents as JSON

`Document.read` and `Document.toJson` are the two directions of the format. Names may be left out of
a document that is read.
-/

namespace Keystroke

open Json

structure LayerFields where
  layer : Option Layer := none
  keys : Option (List Action) := none

def LayerFields.record : Record LayerFields LayerEntry where
  fields := [
    .slot "layer" (·.layer) (fun state layer => { state with layer := some layer }) Layer.read,
    .slot "keys" (·.keys) (fun state keys => { state with keys := some keys }) (list Action.read)]
  start := {}
  finish state := do
    let layer ← required "layer" state.layer
    let keys ← required "keys" state.keys
    pure { layer, keys }

structure ConfigFields where
  name : Option String := none
  layers : Option (List LayerEntry) := none

def ConfigFields.record : Record ConfigFields ConfigEntry where
  fields := [
    .slot "name" (·.name) (fun state name => { state with name := some name }) string,
    .slot "layers" (·.layers) (fun state layers => { state with layers := some layers })
      (list LayerFields.record.read)]
  start := {}
  finish state := do
    let layers ← required "layers" state.layers
    pure { name := state.name.getD "", layers }

structure DocumentFields where
  name : Option String := none
  configs : Option (List ConfigEntry) := none

def DocumentFields.record : Record DocumentFields Document where
  fields := [
    .slot "name" (·.name) (fun state name => { state with name := some name }) string,
    .slot "configs" (·.configs) (fun state configs => { state with configs := some configs })
      (list ConfigFields.record.read)]
  start := {}
  finish state := do
    let configs ← required "configs" state.configs
    pure { name := state.name.getD "", configs }

def Document.read : Reader Document := DocumentFields.record.read

def LayerEntry.toJson (entry : LayerEntry) : Value :=
  .object [("layer", .number entry.layer.val), ("keys", .list (entry.keys.map Action.toJson))]

def ConfigEntry.toJson (entry : ConfigEntry) : Value :=
  .object [("name", .string entry.name), ("layers", .list (entry.layers.map LayerEntry.toJson))]

def Document.toJson (document : Document) : Value :=
  .object [("name", .string document.name),
    ("configs", .list (document.configs.map ConfigEntry.toJson))]

/-- Why a text is no keymap. -/
inductive KeymapError where
  | text (fault : Fault)
  | document (error : DocumentError)
  deriving DecidableEq, Repr

namespace Keymap

/-- The keymap that a text describes. -/
def ofText (text : String) : Except KeymapError Keymap :=
  match Json.read Document.read text.toList with
  | .error fault => .error (.text fault)
  | .ok document =>
    match ofDocument document with
    | .error error => .error (.document error)
    | .ok keymap => .ok keymap

/-- The text that describes a keymap, under a name. -/
def toText (keymap : Keymap) (name : String) : String := (keymap.toDocument name).toJson.pretty

end Keymap

end Keystroke
