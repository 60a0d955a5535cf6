import Keystroke.Keymap

/-!
# Built-in keymaps

One config for each known layout of the alpha block, all with the same upper layers. The main block
has three rows of twelve; the alpha block takes the ten inner columns, and six thumb keys follow.
-/

namespace Keystroke

/-- The key at a row and a column of the main block. -/
def Key.grid (row : Fin rowCount) (column : Fin columnCount) : Key :=
  ⟨row * columnCount + column, by
    have hrow : row.val < 3 := row.isLt
    have hcolumn : column.val < 12 := column.isLt
    simp only [columnCount, keyCount]
    omega⟩

/-- A thumb key, counted from the left. -/
def Key.thumb (n : Fin 6) : Key :=
  ⟨thumbStart + n, by simp only [thumbStart, rowCount, columnCount, keyCount]; omega⟩

/-- Slots of the alpha block. -/
abbrev alphaCount : Nat := 30

/-- Numerals stand for slots of the alpha block. -/
instance : @NeZero Nat Zero.ofOfNat0 alphaCount := ⟨by decide⟩

/-- The key of a slot of the alpha block. -/
def Key.alpha (i : Fin alphaCount) : Key :=
  have hi : i.val < 30 := i.isLt
  Key.grid ⟨i / 10, by simp only [rowCount]; omega⟩ ⟨i % 10 + 1, by simp only [columnCount]; omega⟩

/-- The known arrangements of the alpha block. -/
inductive Layout where
  | qwerty
  | colemakDh
  | dvorak
  deriving DecidableEq, Repr

namespace Layout

/-- All layouts, in the order of the configs they fill. -/
def all : List Layout := [qwerty, colemakDh, dvorak]

def name : Layout → String
  | qwerty => "qwerty"
  | colemakDh => "colemak_dh"
  | dvorak => "dvorak"

/-- The layout of exactly this name. -/
def ofName? (name : String) : Option Layout := all.find? (·.name = name)

/-- The characters of the alpha block, row by row. -/
def block : Layout → String
  | qwerty => "qwertyuiopasdfghjkl;zxcvbnm,./"
  | colemakDh => "qwfpbjluy;arstgmneiozxcdvkh,./"
  | dvorak => "',.pyfgcrlaoeuidhtns;qjkxbmwvz"

end Layout

/-- The codes that type the characters of an alpha block; a slot without one stays transparent. -/
def alphaCodes (block : String) : List (Option KeyCode) :=
  (block.toList.take alphaCount).map KeyCode.ofChar?

/-- The codes of a layout. -/
def Layout.codes (layout : Layout) : List (Option KeyCode) := alphaCodes layout.block

/-- A layer with the given entries, later ones in place of earlier ones. -/
def LayerMap.ofEntries (entries : List (Key × Action)) : LayerMap :=
  entries.foldl (fun layer (key, action) => layer.set key action)
    (Slots.fill Action.noOp)

namespace Builtin

private def alphaEntries (block : String) : List (Key × Action) :=
  (List.finRange alphaCount).filterMap fun i =>
    ((alphaCodes block)[i.val]?.join).map fun code => (Key.alpha i, .emit code)

private def symbols : Layer := 1
private def navigation : Layer := 2
private def system : Layer := 3
private def game : Layer := 4

private def baseLayer (layout : Layout) : LayerMap :=
  LayerMap.ofEntries <| alphaEntries layout.block ++
    [(.grid 0 0, .emit .tab),
     (.grid 0 11, .emit .backspace),
     (.grid 1 0, .tapHold (.emit .escape) (.emit .leftCtrl)),
     (.grid 1 11, .emit .quote),
     (.grid 2 0, .emit .leftShift),
     (.grid 2 11, .emit .rightShift),
     (.thumb 0, .emit .leftGui),
     (.thumb 1, .basic (.layerHold symbols)),
     (.thumb 2, .tapHold (.emit .space) (.layerHold system)),
     (.thumb 3, .tapHold (.emit .enter) (.layerHold navigation)),
     (.thumb 4, .basic (.layerHold navigation)),
     (.thumb 5, .emit .rightAlt)]

private def symbolsLayer : LayerMap :=
  LayerMap.ofEntries <| alphaEntries "1234567890`-=[]\\;'____________" ++
    [(.grid 0 11, .emit .delete)]

/-- Movement on the right, home row modifiers on the left and undo, cut, copy, paste below. -/
private def navigationLayer : LayerMap :=
  LayerMap.ofEntries
    [(.grid 0 6, .emit .home),
     (.grid 0 7, .emit .pageDown),
     (.grid 0 8, .emit .pageUp),
     (.grid 0 9, .emit .endKey),
     (.grid 1 6, .emit .left),
     (.grid 1 7, .emit .down),
     (.grid 1 8, .emit .up),
     (.grid 1 9, .emit .right),
     (.grid 1 1, .emit .leftGui),
     (.grid 1 2, .emit .leftAlt),
     (.grid 1 3, .emit .leftCtrl),
     (.grid 1 4, .emit .leftShift),
     (.grid 2 6, .emit .insert),
     (.grid 2 7, .emit .printScreen),
     (.grid 2 1, .basic (.chord (.pair .leftCtrl .z))),
     (.grid 2 2, .basic (.chord (.pair .leftCtrl .x))),
     (.grid 2 3, .basic (.chord (.pair .leftCtrl .c))),
     (.grid 2 4, .basic (.chord (.pair .leftCtrl .v)))]

private def systemLayer : LayerMap :=
  LayerMap.ofEntries
    [(.alpha 0, .emit .f1),
     (.alpha 1, .emit .f2),
     (.alpha 2, .emit .f3),
     (.alpha 3, .emit .f4),
     (.alpha 4, .emit .f5),
     (.alpha 5, .emit .f6),
     (.alpha 6, .emit .f7),
     (.alpha 7, .emit .f8),
     (.alpha 8, .emit .f9),
     (.alpha 9, .emit .f10),
     (.alpha 10, .emit .f11),
     (.alpha 11, .emit .f12),
     (.alpha 20, .basic (.configSwitch 0)),
     (.alpha 21, .basic (.configSwitch 1)),
     (.alpha 22, .basic (.configSwitch 2)),
     (.alpha 29, .basic (.layerToggle game))]

private def gameLayer : LayerMap :=
  LayerMap.ofEntries
    [(.grid 1 0, .emit .leftCtrl),
     (.thumb 2, .emit .space),
     (.thumb 3, .emit .enter),
     (.thumb 5, .basic (.layerToggle game))]

end Builtin

open Builtin in
/-- The keymap in use when none is given. -/
def Keymap.builtin : Keymap :=
  (Config.all.zip Layout.all).foldl (fun keymap (config, layout) =>
    ((((keymap.setLayer config Layer.base (baseLayer layout)).setLayer config symbols
      symbolsLayer).setLayer config navigation navigationLayer).setLayer config system
      systemLayer).setLayer config game gameLayer) Keymap.empty

end Keystroke
