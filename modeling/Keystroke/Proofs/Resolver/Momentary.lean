import Keystroke.Proofs.LayerStack.Fixed
import Keystroke.Proofs.Resolver.Holds

/-!
# Momentary actions

An action is momentary if it lasts no longer than the press that applies it: all but the toggles
and the config switches. Undoing a momentary action that was just performed restores the resolver
(`Resolver.undo_perform`). For a hold this is an account of the layer stack: a layer that is wanted
already is neither moved by the press nor taken out by the release, and one that is not was put on
top by the press, from where the release takes it.
-/

namespace Keystroke

/-- The action lasts no longer than its key is held. -/
def BasicAction.isMomentary : BasicAction → Bool
  | layerToggle _ | configSwitch _ => false
  | noOp | emit _ | chord _ | combined _ _ _ | layerHold _ => true

namespace LayerStack

variable {stack : LayerStack} {layer : Layer}

/-- A layer that was not active is taken from where it was put. -/
theorem deactivate_activate (h : stack.isActive layer = false) :
    ((stack.activate layer).value.1.deactivate layer).value.1 = stack := by
  have hb := (not_isActive_iff.mp h).1
  rw [activate_of_not_isActive (Bool.eq_false_iff.mp h),
    deactivate_of_mem hb List.mem_cons_self, List.erase_cons_head]

end LayerStack

namespace Resolver

variable {resolver : Resolver} {key : Key} {action : BasicAction} {layer : Layer}

theorem isMomentary_outcome : (resolver.outcome action).isMomentary = action.isMomentary := by
  cases action <;> rfl

theorem perform_layerHold_value : (resolver.perform (.layerHold layer)).value =
    { resolver with
      holds := resolver.holds.set layer (resolver.holds[layer] + 1)
      layers := (resolver.layers.activate layer).value.1 } := by
  have hwants : wants { resolver with
      holds := resolver.holds.set layer (resolver.holds[layer] + 1) } layer = true := by
    simp only [wants_iff, Slots.getElem_set_self]
    exact .inl (Nat.succ_pos _)
  rw [perform, sync_value, if_pos hwants]

/-- A hold that is given up again leaves the layer stack as it was: the layer stays where it is if
it was wanted before, and goes from the top if it was not. -/
theorem layers_undo_hold
    (h : layer ≠ Layer.base →
      (resolver.layers.isActive layer = true ↔ resolver.wants layer = true)) :
    (if resolver.wants layer then (resolver.layers.activate layer).value.1.activate layer
      else (resolver.layers.activate layer).value.1.deactivate layer).value.1 =
      resolver.layers := by
  cases hactive : resolver.layers.isActive layer with
  | true =>
    rw [LayerStack.activate_of_isActive hactive]
    split
    · rw [LayerStack.activate_of_isActive hactive]
    · next hwants =>
      -- only the base layer is active without being wanted, and it is never taken out
      have hb : layer = Layer.base := by
        by_contra hb
        exact hwants ((h hb).mp hactive)
      rw [LayerStack.deactivate_of_notMem (.inl hb)]
  | false =>
    have hb := (LayerStack.not_isActive_iff.mp hactive).1
    have hwants : ¬resolver.wants layer = true := by
      rw [← h hb, hactive]
      exact Bool.false_ne_true
    rw [if_neg hwants, LayerStack.deactivate_activate hactive]

/-- Undoing a momentary action that was just performed restores the resolver. -/
theorem undo_perform
    (hactive : ∀ layer, layer ≠ Layer.base →
      (resolver.layers.isActive layer = true ↔ resolver.wants layer = true))
    (h : action.isMomentary = true) :
    (resolver.perform action).value.undo action = resolver := by
  cases action with
  | layerHold layer =>
    have hback : (resolver.holds.set layer (resolver.holds[layer] + 1)).set layer
        (resolver.holds[layer] + 1 - 1) = resolver.holds := by
      rw [Slots.set_set, Nat.add_sub_cancel, Slots.set_getElem_self]
    have hlayers := layers_undo_hold (hactive layer)
    simp only [perform_layerHold_value, undo, sync_value, Slots.getElem_set_self, hback]
    exact congrArg (fun layers => { resolver with layers }) hlayers
  | layerToggle | configSwitch => cases h
  | noOp | emit | chord | combined => rfl

/-- A key with nothing latched has nothing to undo before its press. -/
theorem press_of_free (hfree : resolver.latched[key] = none) :
    (resolver.press key action).value =
      { (resolver.perform (resolver.outcome action)).value with
        latched := resolver.latched.set key (some (resolver.outcome action)) } := by
  rw [press_value, release_of_none hfree]

/-- The release after a press undoes what the press performed. -/
theorem release_press_of_free (hfree : resolver.latched[key] = none) :
    ((resolver.press key action).value.release key).value =
      ((resolver.perform (resolver.outcome action)).value.undo (resolver.outcome action),
        some (resolver.outcome action)) := by
  have hlatch : (resolver.press key action).value.latched[key] =
      some (resolver.outcome action) := by
    rw [press_latched, Slots.getElem_set_self]
  have hcleared : resolver.latched.set key none = resolver.latched := by
    rw [← hfree, Slots.set_getElem_self]
  rw [release_of_some hlatch, press_of_free hfree, Slots.set_set, hcleared,
    ← perform_latched resolver (resolver.outcome action)]

/-- A momentary press is undone exactly, precedence included. Let the layers above base that are
active be those with a hold or a toggle, and let the hold counts be exact. If a key with nothing
latched applies an action other than a toggle or a config switch, and is then released, the release
returns what the action came out as and leaves the resolver and its layers as they were. In between
no hold count exceeds the number of keys and no stack without repeats exceeds its room, and a hold
of a layer that was active before has left the order of precedence alone. -/
theorem momentary_press_is_undone (resolver : Resolver) (key : Key) (action : BasicAction)
    (hactive : ∀ layer, layer ≠ Layer.base → (resolver.layers.isActive layer = true ↔
      0 < resolver.holds[layer] ∨ resolver.toggled[layer] = true))
    (hcounted : ∀ layer : Layer, resolver.holds[layer] =
      Key.all.countP fun key => resolver.latched[key] = some (.layerHold layer))
    (hfree : resolver.latched[key] = none) (hmomentary : action.isMomentary = true) :
    let pressed := (resolver.press key action).value
    (pressed.release key).value = (resolver, some (resolver.outcome action)) ∧
    ((∀ layer : Layer, pressed.holds[layer] ≤ keyCount) ∧
      (resolver.layers.Proper → pressed.layers.size ≤ layerCount - 1)) ∧
    ∀ layer, action = .layerHold layer → resolver.layers.isActive layer = true →
      pressed.layers = resolver.layers := by
  intro pressed
  have hwanted : ∀ layer, layer ≠ Layer.base →
      (resolver.layers.isActive layer = true ↔ resolver.wants layer = true) :=
    fun layer hb => (hactive layer hb).trans wants_iff.symm
  have hpressed : pressed.Counted := Counted.press hcounted key action
  refine ⟨?_, ⟨fun layer => ?_, fun hproper => (proper_press hproper).size_le⟩, ?_⟩
  · rw [release_press_of_free hfree, undo_perform hwanted (isMomentary_outcome.trans hmomentary)]
  · exact hpressed layer ▸ holders_le pressed layer
  · rintro layer rfl hlayer
    change (resolver.press key (.layerHold layer)).value.layers = resolver.layers
    rw [press_of_free hfree]
    change (resolver.perform (.layerHold layer)).value.layers = resolver.layers
    rw [perform_layerHold_value, LayerStack.activate_of_isActive hlayer]

/-- With layer 2 toggled on and layer 1 held by key 3 above it, key 5 holds layer 4, which the press
puts on top, or layer 2, which stays below. -/
theorem momentary_press_is_undone_held_and_toggled :
    let resolver : Resolver := { new with
      down := new.down.set 3 true
      latched := new.latched.set 3 (some (.layerHold 1))
      holds := new.holds.set 1 1
      toggled := new.toggled.set 2 true
      layers := ⟨[1, 2]⟩ }
    (resolver.press 5 (.layerHold 4)).value.layers.order = [4, 1, 2, 0] ∧
      ((resolver.press 5 (.layerHold 4)).value.release 5).value =
        (resolver, some (.layerHold 4)) ∧
      (resolver.press 5 (.layerHold 2)).value.layers = resolver.layers ∧
      ((resolver.press 5 (.combined 3 .a .b)).value.release 5).value =
        (resolver, some (.emit .b)) := by
  intro resolver
  have hactive : ∀ layer, layer ≠ Layer.base → (resolver.layers.isActive layer = true ↔
      0 < resolver.holds[layer] ∨ resolver.toggled[layer] = true) := by decide
  have hcounted : ∀ layer : Layer, resolver.holds[layer] =
      Key.all.countP fun key => resolver.latched[key] = some (.layerHold layer) := by decide
  have undone := fun action =>
    momentary_press_is_undone resolver 5 action hactive hcounted (by decide)
  exact ⟨by decide, (undone (.layerHold 4) rfl).1, (undone (.layerHold 2) rfl).2.2 2 rfl (by decide),
    (undone (.combined 3 .a .b) rfl).1⟩

end Resolver

end Keystroke
