import Keystroke.Board
import Keystroke.Clock
import Keystroke.Json.Record
import Keystroke.Json.Value

/-!
# Indices, edges and dimensions as JSON

An index is a number, an edge a name, and the dimensions of a board a record of four fields.
-/

namespace Keystroke

open Json

def Key.read : Reader Key := Json.index .key

def Layer.read : Reader Layer := Json.index .layer

def Config.read : Reader Config := Json.index .config

def Edge.read : Reader Edge := variant [.plain "Pressed" .pressed, .plain "Released" .released]

def Edge.toJson : Edge → Value
  | pressed => .string "Pressed"
  | released => .string "Released"

structure BoardFields where
  configs : Option UInt8 := none
  keys : Option UInt8 := none
  layers : Option UInt8 := none
  split : Option Bool := none

def BoardFields.record : Record BoardFields BoardInfo where
  fields := [
    .slot "num_configs" (·.configs) (fun state n => { state with configs := some n }) uint8,
    .slot "num_keys" (·.keys) (fun state n => { state with keys := some n }) uint8,
    .slot "num_layers" (·.layers) (fun state n => { state with layers := some n }) uint8,
    .slot "is_split" (·.split) (fun state split => { state with split := some split }) bool]
  start := {}
  finish state := do
    let configs ← required "num_configs" state.configs
    let keys ← required "num_keys" state.keys
    let layers ← required "num_layers" state.layers
    let split ← required "is_split" state.split
    pure { configs, keys, layers, split }

def BoardInfo.read : Reader BoardInfo := BoardFields.record.read

def BoardInfo.toJson (info : BoardInfo) : Value :=
  .object [("num_configs", .number info.configs.toNat), ("num_keys", .number info.keys.toNat),
    ("num_layers", .number info.layers.toNat), ("is_split", .bool info.split)]

end Keystroke
