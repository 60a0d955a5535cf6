import Keystroke.Slots

/-!
# The board

Dimensions of the keyboard, the three index types cut from them, and the tables with one entry per
index. An index from outside is checked once (`IndexKind.check`); past that point it is a `Fin` and
cannot be out of range.
-/

namespace Keystroke

/-- Physical switch positions: three rows of twelve and six thumb keys. -/
abbrev keyCount : Nat := 42

/-- Layers of one keymap table, the base layer included. -/
abbrev layerCount : Nat := 6

/-- Keymap tables that can be switched between. -/
abbrev configCount : Nat := 3

/-- A physical switch position. -/
abbrev Key := Fin keyCount

/-- A layer; layer 0 is the base layer, which is always active. -/
abbrev Layer := Fin layerCount

/-- A keymap table (configuration profile). -/
abbrev Config := Fin configCount

instance : @NeZero Nat Zero.ofOfNat0 keyCount := ⟨by decide⟩

instance : @NeZero Nat Zero.ofOfNat0 layerCount := ⟨by decide⟩

instance : @NeZero Nat Zero.ofOfNat0 configCount := ⟨by decide⟩

def Key.all : List Key := List.finRange keyCount

def Layer.all : List Layer := List.finRange layerCount

def Config.all : List Config := List.finRange configCount

/-- The layer below all others. -/
abbrev Layer.base : Layer := 0

@[simp] theorem Key.mem_all (key : Key) : key ∈ Key.all := List.mem_finRange key

theorem Key.nodup_all : Key.all.Nodup := List.nodup_finRange keyCount

@[simp] theorem Layer.mem_all (layer : Layer) : layer ∈ Layer.all := List.mem_finRange layer

@[simp] theorem Config.mem_all (config : Config) : config ∈ Config.all := List.mem_finRange config

abbrev PerKey (α : Type) := Slots keyCount α

abbrev PerLayer (α : Type) := Slots layerCount α

abbrev PerConfig (α : Type) := Slots configCount α

/-- Which kind of index a number was meant to be. -/
inductive IndexKind where
  | key
  | layer
  | config
  deriving DecidableEq, Repr

/-- Exclusive upper bound of the valid indices of a kind. -/
def IndexKind.limit : IndexKind → Nat
  | .key => keyCount
  | .layer => layerCount
  | .config => configCount

def IndexKind.name : IndexKind → String
  | .key => "key"
  | .layer => "layer"
  | .config => "config"

/-- A number that is no index of its kind. -/
structure IndexError where
  kind : IndexKind
  index : Nat
  deriving DecidableEq, Repr

def IndexError.message (e : IndexError) : String :=
  e.kind.name ++ " index " ++ toString e.index ++ " out of range (limit " ++
    toString e.kind.limit ++ ")"

/-- Checks a number against the limit of its kind. -/
def IndexKind.check (kind : IndexKind) (n : Nat) : Except IndexError (Fin kind.limit) :=
  if h : n < kind.limit then .ok ⟨n, h⟩ else .error ⟨kind, n⟩

def Key.ofNat (n : Nat) : Except IndexError Key := IndexKind.key.check n

def Layer.ofNat (n : Nat) : Except IndexError Layer := IndexKind.layer.check n

def Config.ofNat (n : Nat) : Except IndexError Config := IndexKind.config.check n

theorem Config.ofNat_eq_ok_iff {n : Nat} : (∃ c, Config.ofNat n = .ok c) ↔ n < configCount := by
  unfold Config.ofNat IndexKind.check
  constructor
  · rintro ⟨c, h⟩
    split at h
    · assumption
    · cases h
  · intro h
    exact ⟨⟨n, h⟩, dif_pos h⟩

/-! ## Places on the board -/

abbrev columnCount : Nat := 12

abbrev rowCount : Nat := 3

instance : @NeZero Nat Zero.ofOfNat0 columnCount := ⟨by decide⟩

instance : @NeZero Nat Zero.ofOfNat0 rowCount := ⟨by decide⟩

/-- First key of the thumb cluster, which follows the main block. -/
abbrev thumbStart : Nat := rowCount * columnCount

/-- The key `column` steps right in `row`, counted through to the end of the board. -/
def Key.atGrid (row column : Nat) : Except IndexError Key := Key.ofNat (row * columnCount + column)

/-- The `n`-th thumb key from the left. -/
def Key.atThumb (n : Nat) : Except IndexError Key := Key.ofNat (thumbStart + n)

/-- The `i`-th slot of the alpha block, which takes the ten inner columns of each row. -/
def Key.atAlpha (i : Nat) : Except IndexError Key := Key.atGrid (i / 10) (i % 10 + 1)

/-- Dimensions of a board as a configuration host sees them. -/
structure BoardInfo where
  configs : UInt8
  keys : UInt8
  layers : UInt8
  split : Bool
  deriving DecidableEq, Repr

/-- The dimensions of this board. -/
def BoardInfo.current : BoardInfo where
  configs := configCount.toUInt8
  keys := keyCount.toUInt8
  layers := layerCount.toUInt8
  split := true

/-- Wire form: configs, keys, layers and a split flag. -/
def BoardInfo.bytes (info : BoardInfo) : List UInt8 :=
  [info.configs, info.keys, info.layers, if info.split then 1 else 0]

end Keystroke
