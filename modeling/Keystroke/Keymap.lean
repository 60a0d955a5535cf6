import Keystroke.Action

/-!
# Keymaps

A keymap gives every key of every layer of every config an action. It is built before the engine
starts and only read afterwards. `Keymap.ext_lookup` says that its look-ups are all there is to it.
-/

namespace Keystroke

/-- The entries of one layer. -/
abbrev LayerMap := PerKey Action

/-- The layers of one config. -/
abbrev ConfigMap := PerLayer LayerMap

/-- The entries of all layers of all configs. -/
structure Keymap where
  configs : PerConfig ConfigMap
  deriving DecidableEq, Repr

namespace Keymap

/-- Every entry is transparent. -/
def empty : Keymap :=
  ⟨Slots.fill (Slots.fill (Slots.fill Action.noOp))⟩

/-- The entries of one layer. -/
def layer (keymap : Keymap) (config : Config) (layer : Layer) : LayerMap :=
  keymap.configs[config][layer]

/-- The entry of a key on a layer. -/
def lookup (keymap : Keymap) (config : Config) (layer : Layer) (key : Key) : Action :=
  (keymap.layer config layer)[key]

/-- Replaces a whole layer. -/
def setLayer (keymap : Keymap) (config : Config) (layer : Layer) (entries : LayerMap) : Keymap :=
  ⟨keymap.configs.set config (keymap.configs[config].set layer entries)⟩

/-- Replaces one entry. -/
def set (keymap : Keymap) (config : Config) (layer : Layer) (key : Key) (action : Action) :
    Keymap :=
  keymap.setLayer config layer ((keymap.layer config layer).set key action)

/-- A layer without any entry of its own. -/
def isLayerEmpty (keymap : Keymap) (config : Config) (layer : Layer) : Bool :=
  (keymap.layer config layer).toList.all Action.isTransparent

/-- The layers of a config that are in use: base, and those with an entry of their own. -/
def usedLayers (keymap : Keymap) (config : Config) : List Layer :=
  Layer.all.filter fun layer => layer = Layer.base || !keymap.isLayerEmpty config layer

/-- The entries that are not transparent, with their places, in index order. -/
def entries (keymap : Keymap) : List (Config × Layer × Key × Action) :=
  Config.all.flatMap fun config => Layer.all.flatMap fun layer => Key.all.filterMap fun key =>
    let action := keymap.lookup config layer key
    if action.isTransparent then none else some (config, layer, key, action)

/-- Two keymaps are the same if all their look-ups agree. -/
theorem ext_lookup {keymap other : Keymap}
    (h : ∀ config layer key, keymap.lookup config layer key = other.lookup config layer key) :
    keymap = other := by
  obtain ⟨a⟩ := keymap
  obtain ⟨b⟩ := other
  congr 1
  ext config layer key
  exact h config layer key

@[simp] theorem lookup_empty (config : Config) (layer : Layer) (key : Key) :
    empty.lookup config layer key = .noOp := by
  simp [lookup, Keymap.layer, empty]

theorem isLayerEmpty_iff {keymap : Keymap} {config : Config} {layer : Layer} :
    keymap.isLayerEmpty config layer = true ↔
      ∀ key : Key, keymap.lookup config layer key = .noOp := by
  rw [isLayerEmpty, List.all_eq_true, Slots.toList_eq_map]
  simp only [List.mem_map, List.mem_finRange, true_and, forall_exists_index,
    forall_apply_eq_imp_iff, Action.isTransparent, decide_eq_true_eq]
  rfl

theorem layer_setLayer (keymap : Keymap) (config other : Config) (layer below : Layer)
    (entries : LayerMap) :
    (keymap.setLayer config layer entries).layer other below =
      if config = other ∧ layer = below then entries else keymap.layer other below := by
  simp only [setLayer, Keymap.layer, Slots.getElem_set]
  by_cases hc : config = other
  · subst hc
    simp only [if_true, Slots.getElem_set, true_and]
  · simp [hc]

theorem lookup_set (keymap : Keymap) (config other : Config) (layer below : Layer) (key there : Key)
    (action : Action) : (keymap.set config layer key action).lookup other below there =
      if config = other ∧ layer = below ∧ key = there then action
      else keymap.lookup other below there := by
  rw [lookup, set, layer_setLayer]
  by_cases hlayer : config = other ∧ layer = below
  · obtain ⟨rfl, rfl⟩ := hlayer
    simp only [Slots.getElem_set, true_and, if_true]
    rfl
  · rw [if_neg hlayer, if_neg fun h => hlayer ⟨h.1, h.2.1⟩]
    rfl

end Keymap

end Keystroke
