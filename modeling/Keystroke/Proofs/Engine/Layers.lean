import Keystroke.Proofs.Engine.Deeds
import Keystroke.Proofs.Resolver.History

/-!
# The layers of an engine

Every run of an engine leads its resolver through a history in which the layer stack is left to the
resolver (`Coupled`), so what holds after such histories holds in every state of an engine
(`reached_run`). `layers_follow_holds_and_toggles` puts the account of the layers together: hold
counts are exact, toggles are parities, and the layer stack follows both.
-/

namespace Keystroke

namespace Resolver

/-- Some history with the layer stack left to the resolver leads to this state. -/
def Reached (resolver : Resolver) : Prop := ∃ history, Coupled history ∧ after history = resolver

variable {resolver : Resolver}

theorem Reached.new : Reached Resolver.new := ⟨[], .nil, rfl⟩

theorem Reached.own (H : resolver.Reached) (operation : Operation)
    (h : operation.isOwn = true) : (resolver.operate operation).Reached := by
  obtain ⟨history, hc, rfl⟩ := H
  exact ⟨operation :: history, .own h hc, rfl⟩

theorem Reached.resetClear (H : resolver.Reached) :
    ({ resolver.reset with layers := {} } : Resolver).Reached := by
  obtain ⟨history, hc, rfl⟩ := H
  exact ⟨.clear :: .reset :: history, .resetClear hc, rfl⟩

theorem Reached.counted (H : resolver.Reached) : resolver.Counted := by
  obtain ⟨history, -, rfl⟩ := H
  exact counted_after history

theorem Reached.proper (H : resolver.Reached) : resolver.layers.Proper := by
  obtain ⟨history, -, rfl⟩ := H
  exact proper_after history

theorem Reached.syncedAt (H : resolver.Reached) (layer : Layer) : resolver.SyncedAt layer := by
  obtain ⟨history, hc, rfl⟩ := H
  exact hc.syncedAt layer

end Resolver

namespace Engine

variable {engine : Engine} {keymap : Keymap} {settings : Settings}

theorem new_eq_ok (h : Engine.new keymap settings = .ok engine) :
    ∃ config, engine = {
      keymap
      config
      pending := none
      debouncer := Debouncer.new settings.debouncePolicy
      resolver := Resolver.new
      tapHold := TapHold.Machine.new settings.tapHoldTicks settings.interruptPolicy
      assembler := {} } := by
  rw [Engine.new] at h
  cases hc : settings.initial with
  | error e =>
    rw [hc] at h
    cases h
  | ok config =>
    rw [hc] at h
    cases h
    exact ⟨config, rfl⟩

theorem keymap_run (h : Engine.new keymap settings = .ok engine) (inputs : List Input) :
    (engine.run inputs).keymap = keymap := by
  obtain ⟨config, rfl⟩ := new_eq_ok h
  refine run_induction (P := fun engine => engine.keymap = keymap) (fun _ _ H => H)
    (fun engine input H => ?_) (fun engine move H => ?_) (fun _ H => H) rfl inputs
  · exact (keymap_started engine input).trans H
  · rw [make_value, keymap_carryOut]
    exact H

/-- Each deed is one or two operations on the resolver. -/
theorem reached_carryOut {deed : Deed} (H : engine.resolver.Reached) (h : engine.Due deed) :
    (engine.carryOut deed).resolver.Reached := by
  cases deed with
  | wait | stay => exact H
  | switch config => exact H.resetClear
  | start key tap hold now =>
    have := H.own (.resolve engine.keymap engine.config key .pressed) rfl
    rwa [Resolver.operate_resolve_tapHold h] at this
  | press key action =>
    have := H.own (.resolve engine.keymap engine.config key .pressed) rfl
    rwa [Resolver.operate_resolve_basic h] at this
  | tap key action =>
    exact (H.own (.keyUp key) rfl).own (.press key action) rfl
  | hold key action => exact H.own (.press key action) rfl
  | endTap key => exact H.own (.release key) rfl
  | endHold key | release key =>
    exact (H.own (.keyUp key) rfl).own (.release key) rfl

theorem reached_play (H : engine.resolver.Reached) (moves : List Move) :
    (engine.play moves).resolver.Reached := by
  refine play_induction (P := fun engine => engine.resolver.Reached) (fun engine move H => ?_) H
    moves
  rw [make_value]
  exact reached_carryOut H (due_deed engine move)

theorem reached_run (h : Engine.new keymap settings = .ok engine) (inputs : List Input) :
    (engine.run inputs).resolver.Reached := by
  obtain ⟨config, rfl⟩ := new_eq_ok h
  refine run_induction (P := fun engine => engine.resolver.Reached) (fun _ _ H => H)
    (fun engine input H => ?_) (fun engine move H => ?_) (fun engine H => ?_)
    Resolver.Reached.new inputs
  · rwa [resolver_started]
  · rw [make_value]
    exact reached_carryOut H (due_deed engine move)
  · exact H.own .takeRequest rfl

/-- The account of the layers. After every history the hold count of a layer is the number of keys
that have a hold of it latched, so that it fits a byte and is positive whenever a hold is undone,
and its toggle is the parity of the presses since the last reset. Right after a press or release
that changes the hold or the toggle of a layer above base, the layer is active if one of the two
calls for it; if the layer stack is left to the resolver, as in every run of an engine, it always
is. -/
theorem layers_follow_holds_and_toggles :
    (∀ (history : List Resolver.Operation) (layer : Layer),
      let resolver := Resolver.after history
      resolver.holds[layer] =
          (Key.all.countP fun key => resolver.latched[key] = some (.layerHold layer)) ∧
        resolver.holds[layer] < 2 ^ 8 ∧
        (∀ key : Key, resolver.latched[key] = some (.layerHold layer) → 0 < resolver.holds[layer]) ∧
        resolver.toggled[layer] = decide (Resolver.togglePresses layer history % 2 = 1)) ∧
    (∀ (history : List Resolver.Operation) (operation : Resolver.Operation) (layer : Layer),
      layer ≠ Layer.base → (Resolver.after history).Touches operation layer →
      let resolver := Resolver.after (operation :: history)
      resolver.layers.isActive layer = true ↔
        0 < resolver.holds[layer] ∨ resolver.toggled[layer] = true) ∧
    (∀ (history : List Resolver.Operation) (layer : Layer),
      Resolver.Coupled history → layer ≠ Layer.base →
      let resolver := Resolver.after history
      resolver.layers.isActive layer = true ↔
        0 < resolver.holds[layer] ∨ resolver.toggled[layer] = true) ∧
    ∀ (keymap : Keymap) (settings : Settings) (engine : Engine) (inputs : List Input),
      Engine.new keymap settings = .ok engine →
      let resolver := (engine.run inputs).resolver
      (∃ history, Resolver.Coupled history ∧ Resolver.after history = resolver) ∧
        ∀ layer : Layer, layer ≠ Layer.base →
          (resolver.layers.isActive layer = true ↔
            0 < resolver.holds[layer] ∨ resolver.toggled[layer] = true) := by
  refine ⟨fun history layer => ?_, fun history operation layer hb ht => ?_,
    fun history layer hc hb => ?_, fun keymap settings engine inputs h => ?_⟩
  · have hcount := Resolver.counted_after history layer
    refine ⟨hcount, ?_, fun key hl => ?_, Resolver.toggled_after history layer⟩
    · have hle := (Resolver.after history).holders_le layer
      rw [hcount]
      exact Nat.lt_of_le_of_lt hle (by decide)
    · rw [hcount]
      exact Resolver.holders_pos hl
  · exact Resolver.isActive_iff_of_syncedAt (ht.syncedAt (Resolver.proper_after history)) hb
  · exact Resolver.isActive_iff_of_syncedAt (hc.syncedAt layer) hb
  · have H := reached_run h inputs
    exact ⟨H, fun layer hb => Resolver.isActive_iff_of_syncedAt (H.syncedAt layer) hb⟩

/-- A hold of layer 1 pressed on a key while another toggles that layer, and an engine at rest. -/
theorem layers_follow_holds_and_toggles_overlap :
    let history : List Resolver.Operation := [.press 1 (.layerToggle 1)]
    let operation : Resolver.Operation := .press 0 (.layerHold 1)
    ((Resolver.after history).Touches operation 1 ∧
      ((Resolver.after (operation :: history)).layers.isActive 1 = true ↔
        0 < (Resolver.after (operation :: history)).holds[(1 : Layer)] ∨
          (Resolver.after (operation :: history)).toggled[(1 : Layer)] = true)) ∧
    (Resolver.Coupled history ∧
      ((Resolver.after history).layers.isActive 1 = true ↔
        0 < (Resolver.after history).holds[(1 : Layer)] ∨
          (Resolver.after history).toggled[(1 : Layer)] = true)) ∧
    ∃ engine, Engine.new Keymap.empty {} = .ok engine ∧
      ((engine.run [.levels (Slots.fill true) 7]).resolver.layers.isActive 1 = true ↔
        0 < (engine.run [.levels (Slots.fill true) 7]).resolver.holds[(1 : Layer)] ∨
          (engine.run [.levels (Slots.fill true) 7]).resolver.toggled[(1 : Layer)] = true) := by
  intro history operation
  have hb : (1 : Layer) ≠ Layer.base := by decide
  have ht : (Resolver.after history).Touches operation 1 :=
    .inl ⟨0, .layerHold 1, rfl, .inl rfl⟩
  have hc : Resolver.Coupled history := .own rfl .nil
  obtain ⟨-, htouch, hcoupled, hengine⟩ := layers_follow_holds_and_toggles
  refine ⟨⟨ht, htouch history operation 1 hb ht⟩, ⟨hc, hcoupled history 1 hc hb⟩, _, rfl, ?_⟩
  exact (hengine Keymap.empty {} _ [.levels (Slots.fill true) 7] rfl).2 1 hb

end Engine

end Keystroke
