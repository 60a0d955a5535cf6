import Keystroke.Proofs.Resolver.Effect

/-!
# Hold counts and the layer stack

`Resolver.Counted` says that the hold count of every layer is the number of keys that have a hold
of it latched; the resolver keeps it whatever it is asked to do, so a count never exceeds the
number of keys and is positive whenever a latched hold is undone. `Resolver.SyncedAt` says of one
layer that it is on the stack if it is wanted. A press or release establishes that for the layers
whose hold or toggle it changes and keeps it for all others (`SyncedAt.press`,
`SyncedAt.release`).
-/

namespace Keystroke

namespace Resolver

variable {resolver : Resolver} {key : Key} {action : BasicAction} {layer other : Layer}

/-- How many keys have a hold of a layer latched. -/
def holders (resolver : Resolver) (layer : Layer) : Nat :=
  Key.all.countP fun key => resolver.latched[key] = some (.layerHold layer)

/-- Every hold count is exact. -/
def Counted (resolver : Resolver) : Prop :=
  ∀ layer, resolver.holds[layer] = resolver.holders layer

/-- The layer is on the stack if it is wanted. -/
def SyncedAt (resolver : Resolver) (layer : Layer) : Prop :=
  layer ∈ resolver.layers.upper ↔ layer ≠ Layer.base ∧ resolver.wants layer = true

/-! ## Counting -/

theorem holders_le (resolver : Resolver) (layer : Layer) : resolver.holders layer ≤ keyCount := by
  refine List.countP_le_length.trans ?_
  rw [Key.all, List.length_finRange]

theorem holders_pos (h : resolver.latched[key] = some (.layerHold layer)) :
    0 < resolver.holders layer :=
  List.countP_pos_iff.mpr ⟨key, Key.mem_all key, decide_eq_true h⟩

theorem holders_eq_countP (resolver : Resolver) (layer : Layer) : resolver.holders layer =
    resolver.latched.toList.countP fun latch => latch = some (.layerHold layer) := by
  rw [Slots.toList_eq_map, List.countP_map]
  rfl

/-- Replacing one latch moves the number of holders by what the old and the new latch contribute. -/
theorem holders_set {after : Resolver} {latch : Option BasicAction}
    (h : after.latched = resolver.latched.set key latch) (layer : Layer) :
    after.holders layer + (if resolver.latched[key] = some (.layerHold layer) then 1 else 0) =
      resolver.holders layer + (if latch = some (.layerHold layer) then 1 else 0) := by
  have := resolver.latched.countP_toList_set key latch fun latch => latch = some (.layerHold layer)
  simpa only [holders_eq_countP, h, decide_eq_true_eq] using this

theorem Counted.congr {after : Resolver} (H : resolver.Counted)
    (hl : after.latched = resolver.latched) (hh : after.holds = resolver.holds) :
    after.Counted := by
  intro layer
  rw [hh, H layer, holders, holders, hl]

theorem counted_of_latched_none (hl : ∀ key : Key, resolver.latched[key] = none)
    (hh : ∀ layer : Layer, resolver.holds[layer] = 0) : resolver.Counted := by
  intro layer
  rw [hh layer, holders, eq_comm, List.countP_eq_zero]
  intro key _
  rw [hl key]
  exact Bool.false_ne_true

theorem undo_holds (layer : Layer) : (resolver.undo action).holds[layer] =
    resolver.holds[layer] - (if action = .layerHold layer then 1 else 0) := by
  cases action with
  | layerHold held =>
    simp only [undo, sync_value, Slots.getElem_set, BasicAction.layerHold.injEq]
    split
    · next h => rw [h]
    · rfl
  | _ => rfl

theorem perform_holds (layer : Layer) : (resolver.perform action).value.holds[layer] =
    resolver.holds[layer] + (if action = .layerHold layer then 1 else 0) := by
  cases action with
  | layerHold held =>
    simp only [perform, sync_value, Slots.getElem_set, BasicAction.layerHold.injEq]
    split
    · next h => rw [h]
    · rfl
  | layerToggle toggled =>
    rw [perform, sync_value]
    rfl
  | _ => rfl

theorem release_holds (key : Key) (layer : Layer) :
    (resolver.release key).value.1.holds[layer] = resolver.holds[layer] -
      (if resolver.latched[key] = some (.layerHold layer) then 1 else 0) := by
  cases h : resolver.latched[key] with
  | none => simp only [release_of_none h, reduceCtorEq, if_false, Nat.sub_zero]
  | some action => simp only [release_of_some h, undo_holds, Option.some.injEq]

theorem press_holds (key : Key) (action : BasicAction) (layer : Layer) :
    (resolver.press key action).value.holds[layer] =
      (resolver.release key).value.1.holds[layer] +
        (if action = .layerHold layer then 1 else 0) := by
  simp only [press_value, perform_holds, outcome_eq_layerHold]

theorem Counted.release (H : resolver.Counted) (key : Key) :
    (resolver.release key).value.1.Counted := by
  intro layer
  have hset := holders_set (release_latched resolver key) layer
  simp only [reduceCtorEq, if_false] at hset
  rw [release_holds, H layer]
  omega

theorem Counted.press (H : resolver.Counted) (key : Key) (action : BasicAction) :
    (resolver.press key action).value.Counted := by
  intro layer
  have hclear := H.release key layer
  have hnone := holders_set (release_latched resolver key) layer
  have hset := holders_set (press_latched resolver key action) layer
  simp only [reduceCtorEq, if_false] at hnone
  simp only [Option.some.injEq, outcome_eq_layerHold] at hset
  rw [press_holds, hclear]
  omega

/-! ## Toggles -/

theorem perform_toggled (layer : Layer) : (resolver.perform action).value.toggled[layer] =
    (resolver.toggled[layer] ^^ decide (action = .layerToggle layer)) := by
  cases action with
  | layerToggle toggled =>
    simp only [perform, sync_value, Slots.getElem_set, BasicAction.layerToggle.injEq]
    split
    · next h => rw [h, decide_eq_true rfl, Bool.xor_true]
    · next h => rw [decide_eq_false h, Bool.xor_false]
  | layerHold held =>
    rw [perform, sync_value]
    exact (Bool.xor_false _).symm
  | _ => exact (Bool.xor_false _).symm

theorem press_toggled (layer : Layer) : (resolver.press key action).value.toggled[layer] =
    (resolver.toggled[layer] ^^ decide (action = .layerToggle layer)) := by
  rw [press_value]
  change ((resolver.release key).value.1.perform (resolver.outcome action)).value.toggled[layer] = _
  rw [perform_toggled, release_toggled]
  simp only [outcome_eq_layerToggle]

/-! ## The layer stack -/

theorem isActive_iff_of_syncedAt (h : resolver.SyncedAt layer) (hb : layer ≠ Layer.base) :
    resolver.layers.isActive layer = true ↔
      0 < resolver.holds[layer] ∨ resolver.toggled[layer] = true := by
  rw [LayerStack.isActive_iff, or_iff_right hb]
  exact h.trans ((and_iff_right hb).trans wants_iff)

theorem proper_undo (H : resolver.layers.Proper) : (resolver.undo action).layers.Proper := by
  cases action with
  | layerHold layer =>
    refine proper_sync ?_ layer
    exact H
  | _ => exact H

theorem proper_perform (H : resolver.layers.Proper) :
    (resolver.perform action).value.layers.Proper := by
  cases action with
  | layerHold layer | layerToggle layer =>
    refine proper_sync ?_ layer
    exact H
  | _ => exact H

theorem proper_release (H : resolver.layers.Proper) :
    (resolver.release key).value.1.layers.Proper := by
  cases h : resolver.latched[key] with
  | none => rwa [release_of_none h]
  | some action =>
    rw [release_of_some h]
    exact proper_undo H

theorem proper_press (H : resolver.layers.Proper) :
    (resolver.press key action).value.layers.Proper := by
  rw [press_value]
  exact proper_perform (proper_release H)

/-- A change of one layer's hold or toggle followed by its synchronisation. -/
theorem syncedAt_sync (H : resolver.layers.Proper)
    (h : other ≠ layer → resolver.SyncedAt other) : (resolver.sync layer).value.SyncedAt other := by
  have hwants : (resolver.sync layer).value.wants other = resolver.wants other := by
    rw [sync_value]
    rfl
  rw [SyncedAt, hwants, mem_layers_sync H]
  split
  · next he => rw [he]
  · next he => exact h he

theorem syncedAt_set_holds (h : resolver.SyncedAt other) (hne : other ≠ layer) (count : Nat) :
    SyncedAt { resolver with holds := resolver.holds.set layer count } other := by
  simpa only [SyncedAt, wants, Slots.getElem_set_ne _ hne.symm] using h

theorem syncedAt_set_toggled (h : resolver.SyncedAt other) (hne : other ≠ layer) (on : Bool) :
    SyncedAt { resolver with toggled := resolver.toggled.set layer on } other := by
  simpa only [SyncedAt, wants, Slots.getElem_set_ne _ hne.symm] using h

theorem syncedAt_undo (H : resolver.layers.Proper)
    (h : action = .layerHold layer ∨ resolver.SyncedAt layer) :
    (resolver.undo action).SyncedAt layer := by
  cases action with
  | layerHold held =>
    refine syncedAt_sync H fun hne => syncedAt_set_holds (h.resolve_left ?_) hne _
    exact fun he => hne (BasicAction.layerHold.inj he).symm
  | _ => exact h.resolve_left nofun

theorem syncedAt_perform (H : resolver.layers.Proper)
    (h : (action = .layerHold layer ∨ action = .layerToggle layer) ∨ resolver.SyncedAt layer) :
    (resolver.perform action).value.SyncedAt layer := by
  cases action with
  | layerHold held =>
    refine syncedAt_sync H fun hne => syncedAt_set_holds (h.resolve_left ?_) hne _
    rintro (he | he)
    · exact hne (BasicAction.layerHold.inj he).symm
    · cases he
  | layerToggle toggled =>
    refine syncedAt_sync H fun hne => syncedAt_set_toggled (h.resolve_left ?_) hne _
    rintro (he | he)
    · cases he
    · exact hne (BasicAction.layerToggle.inj he).symm
  | _ => exact h.resolve_left (by rintro (h | h) <;> cases h)

theorem syncedAt_release (H : resolver.layers.Proper)
    (h : resolver.latched[key] = some (.layerHold layer) ∨ resolver.SyncedAt layer) :
    (resolver.release key).value.1.SyncedAt layer := by
  cases hl : resolver.latched[key] with
  | none =>
    rw [release_of_none hl]
    exact h.resolve_left (by simp [hl])
  | some action =>
    rw [release_of_some hl]
    refine syncedAt_undo H (h.imp (fun h => ?_) id)
    exact Option.some.inj (hl.symm.trans h)

theorem syncedAt_press (H : resolver.layers.Proper)
    (h : (action = .layerHold layer ∨ action = .layerToggle layer) ∨
      resolver.latched[key] = some (.layerHold layer) ∨ resolver.SyncedAt layer) :
    (resolver.press key action).value.SyncedAt layer := by
  rw [press_value]
  refine syncedAt_perform (proper_release H) (h.imp (fun h => ?_) fun h => syncedAt_release H h)
  rwa [outcome_eq_layerHold, outcome_eq_layerToggle]

end Resolver

end Keystroke
