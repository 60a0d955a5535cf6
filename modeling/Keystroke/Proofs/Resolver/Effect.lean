import Keystroke.Proofs.LayerStack
import Keystroke.Resolver

/-!
# The effect of the resolver's operations

A look-up takes the first entry in the order of precedence (`Keymap.resolve_of_split`).

What `Resolver.press` and `Resolver.release` leave behind, field by field. A press first undoes
what its key has latched and latches the `Resolver.outcome` of its action; a release clears the
latch. Layer stack, hold counts and toggles change through `Resolver.perform` and `Resolver.undo`
alone, each of which ends with `Resolver.sync` of the layer it is about.
-/

namespace Keystroke

/-- `latched` is what `action` can come out as: one of the two emissions of a combined action, the
action itself otherwise. -/
def BasicAction.ComesOutAs : BasicAction → BasicAction → Prop
  | .combined _ normal joint, latched => latched = .emit normal ∨ latched = .emit joint
  | action, latched => latched = action

/-- The config that an action asks for. -/
def BasicAction.config? : BasicAction → Option Config
  | .configSwitch config => some config
  | _ => none

namespace Keymap

variable {keymap : Keymap} {config : Config} {layer : Layer} {key : Key}

theorem find?_of_transparent {layers : List Layer}
    (h : ∀ layer ∈ layers, keymap.lookup config layer key = .noOp) :
    (layers.map (keymap.lookup config · key)).find? (!·.isTransparent) = none := by
  rw [List.find?_eq_none]
  intro action ha
  obtain ⟨layer, hlayer, rfl⟩ := List.mem_map.mp ha
  simp [h layer hlayer, Action.isTransparent]

/-- An entry decides if the key has none on the layers above. -/
theorem resolve_of_split {above below : List Layer}
    (h : ∀ other ∈ above, keymap.lookup config other key = .noOp)
    (hentry : keymap.lookup config layer key ≠ .noOp) :
    keymap.resolve config ⟨above ++ layer :: below⟩ key = keymap.lookup config layer key := by
  have hfound : (keymap.lookup config layer key).isTransparent = false := by
    simpa [Action.isTransparent] using hentry
  rw [resolve, LayerStack.order, List.append_assoc, List.map_append, List.find?_append,
    find?_of_transparent h, Option.none_or, List.cons_append, List.map_cons, List.find?_cons,
    hfound]
  rfl

/-- A key that no upper layer has an entry for falls back to the base layer. -/
theorem resolve_of_transparent {layers : LayerStack}
    (h : ∀ layer ∈ layers.upper, keymap.lookup config layer key = .noOp) :
    keymap.resolve config layers key = keymap.lookup config Layer.base key := by
  rw [resolve, LayerStack.order, List.map_append, List.find?_append, find?_of_transparent h,
    Option.none_or]
  by_cases hbase : keymap.lookup config Layer.base key = .noOp
  · simp [hbase, Action.isTransparent]
  · simp [hbase, Action.isTransparent]

end Keymap

namespace Resolver

/-- What an action comes out as when it is pressed now. -/
def outcome (resolver : Resolver) : BasicAction → BasicAction
  | .combined other normal joint => .emit (if resolver.down[other] then joint else normal)
  | action => action

/-- What undoing an action does to layers: a hold is given up. -/
def undo (resolver : Resolver) : BasicAction → Resolver
  | .layerHold layer =>
    let holds := resolver.holds.set layer (resolver.holds[layer] - 1)
    (sync { resolver with holds } layer).value
  | _ => resolver

variable {resolver : Resolver} {key : Key} {action : BasicAction} {layer : Layer}

/-! ## Outcomes -/

theorem comesOutAs_outcome (resolver : Resolver) (action : BasicAction) :
    action.ComesOutAs (resolver.outcome action) := by
  cases action with
  | combined other normal joint =>
    simp only [outcome, BasicAction.ComesOutAs]
    split
    · exact .inr rfl
    · exact .inl rfl
  | _ => rfl

theorem outcome_congr {other : Resolver} (h : resolver.down = other.down) :
    resolver.outcome action = other.outcome action := by
  cases action <;> simp only [outcome, h]

theorem outcome_eq_layerHold :
    resolver.outcome action = .layerHold layer ↔ action = .layerHold layer := by
  cases action <;> simp [outcome]

theorem outcome_eq_layerToggle :
    resolver.outcome action = .layerToggle layer ↔ action = .layerToggle layer := by
  cases action <;> simp [outcome]

theorem config?_outcome : (resolver.outcome action).config? = action.config? := by
  cases action <;> rfl

@[simp] theorem settle_value : (resolver.settle key action).value = resolver.outcome action := by
  cases action <;> rfl

/-! ## Synchronisation of one layer -/

theorem wants_iff : resolver.wants layer = true ↔
    0 < resolver.holds[layer] ∨ resolver.toggled[layer] = true := by
  simp only [wants, Bool.or_eq_true, decide_eq_true_eq]

theorem sync_value : (resolver.sync layer).value =
    { resolver with layers := (if resolver.wants layer then resolver.layers.activate layer
        else resolver.layers.deactivate layer).value.1 } := by
  unfold sync
  split <;> rfl

theorem proper_sync (H : resolver.layers.Proper) (layer : Layer) :
    (resolver.sync layer).value.layers.Proper := by
  rw [sync_value]
  split
  · exact H.activate layer
  · exact H.deactivate layer

/-- After synchronisation the layer is on the stack if it is wanted; the others stay as they are. -/
theorem mem_layers_sync (H : resolver.layers.Proper) {other : Layer} :
    other ∈ (resolver.sync layer).value.layers.upper ↔
      if other = layer then layer ≠ Layer.base ∧ resolver.wants layer = true
      else other ∈ resolver.layers.upper := by
  rw [sync_value]
  by_cases hw : resolver.wants layer = true
  · rw [if_pos hw, LayerStack.mem_activate]
    split
    · next h =>
      subst h
      refine ⟨?_, fun h => .inr ⟨rfl, h.1⟩⟩
      rintro (hm | h)
      · exact ⟨fun hb => H.base_notMem (hb ▸ hm), hw⟩
      · exact ⟨h.2, hw⟩
    · next h => exact ⟨fun hm => hm.resolve_right fun h' => h h'.1, .inl⟩
  · rw [if_neg hw, H.mem_deactivate]
    split
    · next h => exact ⟨fun h' => absurd h h'.2, fun h' => absurd h'.2 hw⟩
    · next h => exact and_iff_left h

/-! ## Release -/

theorem release_of_none (h : resolver.latched[key] = none) :
    (resolver.release key).value = (resolver, none) := by
  simp only [release, h, Logged.value_pure]

theorem release_of_some (h : resolver.latched[key] = some action) :
    (resolver.release key).value =
      (undo { resolver with latched := resolver.latched.set key none } action, some action) := by
  cases action <;> simp only [release, h] <;> rfl

section
variable (resolver key action)

theorem undo_down : (resolver.undo action).down = resolver.down := by
  cases action <;> simp only [undo, sync_value]

theorem undo_latched : (resolver.undo action).latched = resolver.latched := by
  cases action <;> simp only [undo, sync_value]

theorem undo_toggled : (resolver.undo action).toggled = resolver.toggled := by
  cases action <;> simp only [undo, sync_value]

theorem undo_request : (resolver.undo action).request = resolver.request := by
  cases action <;> simp only [undo, sync_value]

theorem release_down : (resolver.release key).value.1.down = resolver.down := by
  cases h : resolver.latched[key] with
  | none => rw [release_of_none h]
  | some action => rw [release_of_some h, undo_down]

theorem release_latched :
    (resolver.release key).value.1.latched = resolver.latched.set key none := by
  cases h : resolver.latched[key] with
  | none => rw [release_of_none h, ← h, Slots.set_getElem_self]
  | some action => rw [release_of_some h, undo_latched]

theorem release_toggled : (resolver.release key).value.1.toggled = resolver.toggled := by
  cases h : resolver.latched[key] with
  | none => rw [release_of_none h]
  | some action => rw [release_of_some h, undo_toggled]

theorem release_request : (resolver.release key).value.1.request = resolver.request := by
  cases h : resolver.latched[key] with
  | none => rw [release_of_none h]
  | some action => rw [release_of_some h, undo_request]

/-! ## Press -/

theorem perform_down : (resolver.perform action).value.down = resolver.down := by
  cases action <;> simp only [perform, sync_value, Logged.value_pure]

theorem perform_latched : (resolver.perform action).value.latched = resolver.latched := by
  cases action <;> simp only [perform, sync_value, Logged.value_pure]

theorem perform_request :
    (resolver.perform action).value.request = action.config?.or resolver.request := by
  cases action <;> simp [perform, sync_value, BasicAction.config?]

theorem clearLatch_value : (resolver.clearLatch key).value = (resolver.release key).value.1 := by
  cases h : resolver.latched[key] with
  | none => simp only [clearLatch, h, release_of_none, Logged.value_pure]
  | some action => simp only [clearLatch, h]; rfl

theorem press_value : (resolver.press key action).value =
    { ((resolver.release key).value.1.perform (resolver.outcome action)).value with
      latched := resolver.latched.set key (some (resolver.outcome action)) } := by
  have hout : (resolver.release key).value.1.outcome action = resolver.outcome action :=
    outcome_congr (release_down resolver key)
  simp only [press, Logged.value_bind, Logged.value_pure, clearLatch_value, settle_value, hout,
    perform_latched, release_latched, Slots.set_set]

theorem press_down : (resolver.press key action).value.down = resolver.down := by
  rw [press_value]
  exact (perform_down _ _).trans (release_down _ _)

theorem press_latched : (resolver.press key action).value.latched =
    resolver.latched.set key (some (resolver.outcome action)) := by
  rw [press_value]

theorem press_request :
    (resolver.press key action).value.request = action.config?.or resolver.request := by
  rw [press_value]
  change ((resolver.release key).value.1.perform (resolver.outcome action)).value.request = _
  rw [perform_request, config?_outcome, release_request]

end

end Resolver

end Keystroke
