import Keystroke.Console.Table
import Keystroke.Keymap.Builtin
import Keystroke.Replay

/-!
# What the console shows

The dimensions of the board with the built-in layouts, the summary and the grids of a keymap, and
the frames of a replay.
-/

namespace Keystroke.Console

/-- A cell of one line. -/
def cell (text : String) : Lines := [text]

/-- A cell that holds a number. -/
def count (n : Nat) : Lines := [toString n]

/-- The two hexadecimal digits of a byte. -/
def hexByte (byte : UInt8) : String :=
  String.ofList (((Nat.toDigits 16 byte.toNat).reverse ++ ['0']).take 2).reverse

/-- The dimensions of the board. -/
def boardTable : Table :=
  let info := BoardInfo.current
  { header := some [cell "Property", cell "Value"]
    rows := [
      [cell "Configs", count info.configs.toNat],
      [cell "Keys", count info.keys.toNat],
      [cell "Layers", count info.layers.toNat],
      [cell "Split", cell (if info.split then "true" else "false")],
      [cell "Wire bytes", cell ("[" ++ ", ".intercalate (info.bytes.map hexByte) ++ "]")]] }

/-- The built-in layouts. -/
def layoutTable : Table where
  header := some [cell "Config", cell "Built-in layout", cell "Alpha block"]
  rows := (Config.all.zip Layout.all).map fun (config, layout) =>
    [count config.val, cell layout.name,
      cell (layout.block ++ " (" ++ toString (layout.codes.filterMap id).length ++ " keys)")]

/-- The dimensions of the board and the built-in layouts. -/
def board : String := "\n" ++ boardTable.text ++ "\n" ++ layoutTable.text ++ "\n"

/-- The entry sends codes. -/
def isEmission : Action → Bool
  | .basic (.emit _) | .basic (.chord _) | .basic (.combined ..) => true
  | _ => false

/-- The entry controls a layer. -/
def isLayerControl : Action → Bool
  | .basic (.layerHold _) | .basic (.layerToggle _) => true
  | _ => false

/-- The entry selects a config. -/
def isConfigSwitch : Action → Bool
  | .basic (.configSwitch _) => true
  | _ => false

/-- The entry is a pair of a tap and a hold. -/
def isTapHold : Action → Bool
  | .tapHold _ _ => true
  | _ => false

/-- The counts of one layer by kind of entry. -/
def layerRow (keymap : Keymap) (config : Config) (layer : Layer) : List Lines :=
  let entries := (keymap.layer config layer).toList
  [count config.val, count layer.val, count (entries.countP isEmission),
    count (entries.countP isLayerControl), count (entries.countP isTapHold),
    count (entries.countP isConfigSwitch), count (entries.countP Action.isTransparent)]

/-- The counts of all layers of some configs. -/
def summaryTable (keymap : Keymap) (configs : List Config) : Table where
  header := some (["Cfg", "Layer", "Emit", "Layer", "Tap/Hold", "Cfg Sw", "Free"].map cell)
  rows := configs.flatMap fun config => (keymap.usedLayers config).map (layerRow keymap config)
  alignment column := if 2 ≤ column then .right else .left

/-- The counts of all layers of some configs. -/
def summary (keymap : Keymap) (configs : List Config) : String :=
  "\n" ++ (summaryTable keymap configs).text ++ "\n"

/-- A half of a pair in a grid. -/
def halfLabel (action : BasicAction) : String :=
  if action.isTransparent then "-" else action.label

/-- An entry in a grid: nothing if it is transparent, a pair on two lines. -/
def entryLines : Action → Lines
  | .basic .noOp => [""]
  | .tapHold tap hold => [halfLabel tap, halfLabel hold]
  | action => [action.label]

/-- A list cut into rows of the main block. -/
def mainRows (entries : List Lines) : List (List Lines) :=
  (List.range rowCount).map fun row => (entries.drop (row * columnCount)).take columnCount

/-- The entries of a layer where they are on the board; the thumb keys are in the middle. -/
def gridTable (keymap : Keymap) (config : Config) (layer : Layer) : Table :=
  let entries := (keymap.layer config layer).toList.map entryLines
  let thumbs := entries.drop thumbStart
  let margin := List.replicate ((columnCount - thumbs.length) / 2) (cell "")
  { rows := mainRows entries ++ [margin ++ thumbs]
    alignment := fun _ => .center }

/-- The grid of a layer under its heading. -/
def grid (keymap : Keymap) (config : Config) (layer : Layer) : String :=
  "\nConfig " ++ toString config.val ++ " / Layer " ++ toString layer.val ++ "\n" ++
    (gridTable keymap config layer).text ++ "\n"

/-- One frame of a replay. -/
def frameRow (frame : Frame) : List Lines :=
  [count frame.tick.toNat, count frame.config.val,
    cell (" ".intercalate (frame.layers.map fun layer => toString layer.val)),
    cell (if frame.codes.isEmpty then "-" else " ".intercalate (frame.codes.map KeyCode.name))]

/-- The frames of a replay. -/
def frameTable (frames : List Frame) : Table where
  header := some (["Tick", "Cfg", "Layers", "Report"].map cell)
  rows := frames.map frameRow
  alignment column := if column = 0 then .right else .left

/-- The frames of a replay, or the remark that there are none. -/
def frames (frames : List Frame) : String :=
  if frames.isEmpty then "\n(no report changes)\n" else "\n" ++ (frameTable frames).text ++ "\n"

end Keystroke.Console
