import Keystroke.Keymap

/-!
# Keymap documents

The form of a keymap in a file: named configs, each a list of layers in any order, each layer a list
of entries from the first key on. Keys past the end of a list are transparent, and so are layers
that are not listed. `Keymap.ofDocument` reads a document, `Keymap.toDocument` writes one and leaves
out the empty layers above base.
-/

namespace Keystroke

/-- The entries of one layer, from the first key on. -/
structure LayerEntry where
  layer : Layer
  keys : List Action
  deriving DecidableEq, Repr

/-- The layers of one config. -/
structure ConfigEntry where
  name : String := ""
  layers : List LayerEntry
  deriving DecidableEq, Repr

/-- A whole keymap, with a name. -/
structure Document where
  name : String := ""
  configs : List ConfigEntry
  deriving DecidableEq, Repr

/-- Why a document is no keymap. -/
inductive DocumentError where
  | tooManyConfigs (count : Nat)
  | layerTwice (config : Config) (name : String) (layer : Layer)
  | tooManyKeys (config : Config) (layer : Layer) (count : Nat)
  deriving DecidableEq, Repr

def DocumentError.message : DocumentError → String
  | tooManyConfigs count =>
    toString count ++ " configs given, at most " ++ toString configCount ++ " supported"
  | layerTwice config name layer =>
    "config " ++ toString config.val ++ " ('" ++ name ++ "'): layer " ++ toString layer.val ++
      " defined twice"
  | tooManyKeys config layer count =>
    "config " ++ toString config.val ++ " layer " ++ toString layer.val ++ ": " ++
      toString count ++ " keys given, board has " ++ toString keyCount

/-- A layer that starts with the given entries and is transparent from there on. -/
def LayerMap.ofList (keys : List Action) : LayerMap :=
  Slots.ofFn fun key => keys[key.val]?.getD .noOp

namespace Keymap

/-- Puts the layers of one config into a keymap; `seen` are the layers put there before. -/
def addLayers (config : Config) (name : String) (keymap : Keymap) (seen : List Layer) :
    List LayerEntry → Except DocumentError Keymap
  | [] => .ok keymap
  | entry :: rest =>
    if seen.contains entry.layer then .error (.layerTwice config name entry.layer)
    else if keyCount < entry.keys.length then
      .error (.tooManyKeys config entry.layer entry.keys.length)
    else
      addLayers config name (keymap.setLayer config entry.layer (LayerMap.ofList entry.keys))
        (entry.layer :: seen) rest

/-- Puts configs into a keymap, each together with its number. -/
def addConfigs (keymap : Keymap) : List (Config × ConfigEntry) → Except DocumentError Keymap
  | [] => .ok keymap
  | (config, entry) :: rest => do
    let keymap ← addLayers config entry.name keymap [] entry.layers
    addConfigs keymap rest

/-- The keymap that a document describes. -/
def ofDocument (document : Document) : Except DocumentError Keymap :=
  if configCount < document.configs.length then .error (.tooManyConfigs document.configs.length)
  else addConfigs empty (Config.all.zip document.configs)

/-- The document that describes a keymap. -/
def toDocument (keymap : Keymap) (name : String) : Document where
  name
  configs := Config.all.map fun config => {
    name := "config_" ++ toString config.val
    layers := (keymap.usedLayers config).map fun layer =>
      { layer, keys := (keymap.layer config layer).toList } }

end Keymap

end Keystroke
