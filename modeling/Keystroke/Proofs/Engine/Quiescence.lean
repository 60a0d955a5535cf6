import Keystroke.Proofs.Engine.Requests
import Keystroke.Proofs.Report

/-!
# No stuck keys, no stuck layers

A key that is up is `Unwound`: nothing is latched for it and it is idle, unless it is tapped. Every
move keeps that, whatever edges a cycle is given, and since each cycle polls every key before it
handles any edge, a key is tapped after a cycle only if the cycle released it. Once all keys are up
the engine is `Quiet`, and the next cycle without edges ends the last taps; nothing is latched
then, and the exact hold counts and the synchronised layer stack follow.
-/

namespace Keystroke

namespace KeyState

/-- A key that is up has nothing latched and is idle, or it is tapped. -/
def Unwound (s : KeyState) : Prop :=
  s.down = false → (s.latch = none ∧ s.phase = .idle) ∨ ∃ tap, s.phase = .tapped tap

variable {s s' : KeyState}

/-- A pending key is down. -/
theorem Unwound.down_of_pending {since : Tick} {tap hold : BasicAction} (H : s.Unwound)
    (h : s.phase = .pending since tap hold) : s.down = true := by
  refine Bool.of_not_eq_false fun hup => ?_
  rcases H hup with ⟨-, hidle⟩ | ⟨tap', htap⟩
  · rw [hidle] at h
    cases h
  · rw [htap] at h
    cases h

theorem Unwound.step {key : Key} {deed : Deed} (H : s.Unwound) (h : KeyStep key deed s s') :
    s'.Unwound := by
  cases h with
  | keep => exact H
  | switch | endTap | endHold => exact fun _ => .inl ⟨rfl, rfl⟩
  | start | press => exact fun hup => nomatch hup
  | tap => exact fun _ => .inr ⟨_, rfl⟩
  | hold hphase =>
    -- the key is pending and therefore down, and it stays down
    intro hup
    rw [H.down_of_pending hphase] at hup
    cases hup
  | release hphase => exact fun _ => hphase.imp (fun hidle => ⟨rfl, hidle⟩) id

end KeyState

namespace Resolver

variable {resolver : Resolver}

theorem emitting_eq_nil (h : ∀ key : Key, resolver.latched[key] = none) :
    resolver.emitting = [] := by
  rw [emitting_eq, List.flatMap_eq_nil_iff]
  exact fun key _ => codesOf_of_latched_none (h key)

theorem Counted.holds_eq_zero (H : resolver.Counted)
    (h : ∀ key : Key, resolver.latched[key] = none) (layer : Layer) :
    resolver.holds[layer] = 0 := by
  rw [H layer, holders, List.countP_eq_zero]
  intro key _
  rw [h key]
  exact Bool.false_ne_true

end Resolver

namespace Engine

variable {engine : Engine} {keymap : Keymap} {settings : Settings} {move : Move} {key : Key}
  {now : Tick} {edges : Edges}

/-! ## One cycle -/

theorem unwound_make (H : ∀ key, (engine.keyState key).Unwound) (move : Move) (key : Key) :
    ((engine.make move).value.keyState key).Unwound :=
  (H key).step (keyStep_make engine move key)

/-- A key that is up after a cycle has nothing latched and is idle, or the cycle released it. -/
theorem unwound_cycle (H : ∀ key, (engine.keyState key).Unwound) (edges : Edges) (now : Tick)
    (hup : ((engine.play (Move.ofCycle edges now)).keyState key).down = false) :
    (((engine.play (Move.ofCycle edges now)).keyState key).latch = none ∧
      ((engine.play (Move.ofCycle edges now)).keyState key).phase = .idle) ∨
    ∃ tap, ((engine.play (Move.ofCycle edges now)).keyState key).phase = .tapped tap ∧
      edges[key] = some .released := by
  have hunwound := play_induction (P := fun engine => ∀ key, (engine.keyState key).Unwound)
    (fun _ move h => unwound_make h move) H (Move.ofCycle edges now) key
  refine (hunwound hup).imp_right fun ⟨tap, htap⟩ => ⟨tap, htap, ?_⟩
  exact Move.mem_ofCycle_release.mp
    (mem_release_of_tapped (Move.mem_ofCycle_poll edges key now) htap)

/-! ## A cycle without edges -/

/-- All keys are up and no config is asked for. -/
structure Quiet (engine : Engine) : Prop where
  up : ∀ key, (engine.keyState key).down = false
  unwound : ∀ key, (engine.keyState key).Unwound
  request : engine.resolver.request = none

/-- While all keys are up, only the press or the release of a key applies an action. -/
theorem Quiet.applied?_eq_none (H : engine.Quiet) (hp : ∀ key now, move ≠ .press key now)
    (hr : ∀ key, move ≠ .release key) : (engine.deed move).applied? = none := by
  have hdue := due_deed engine move
  have hcause := causedBy_deed engine move
  generalize engine.deed move = deed at hdue hcause
  cases deed with
  | press key action =>
    obtain ⟨now, rfl⟩ := hcause
    exact absurd rfl (hp key now)
  | tap key action => exact absurd hcause (hr key)
  | hold key action =>
    obtain ⟨since, tap, hphase⟩ := hdue
    have hdown := (H.unwound key).down_of_pending hphase
    rw [H.up key] at hdown
    cases hdown
  | _ => rfl

theorem Quiet.make (H : engine.Quiet) (hp : ∀ key now, move ≠ .press key now)
    (hr : ∀ key, move ≠ .release key) : (engine.make move).value.Quiet where
  up key := by
    rw [(keyStep_make engine move key).down_eq (causedBy_deed engine move) (hp key) (hr key)]
    exact H.up key
  unwound := unwound_make H.unwound move
  request := by
    rw [make_value]
    refine request_carryOut_of_none ?_ H.request
    rw [Deed.request?, H.applied?_eq_none hp hr]
    rfl

theorem Quiet.play (H : engine.Quiet) {moves : List Move}
    (hp : ∀ key now, .press key now ∉ moves) (hr : ∀ key, .release key ∉ moves) :
    (engine.play moves).Quiet := by
  induction moves generalizing engine with
  | nil => exact H
  | cons move moves ih =>
    refine ih (H.make (fun key now he => hp key now ?_) fun key he => hr key ?_)
      (fun key now hm => hp key now (List.mem_cons_of_mem _ hm))
      (fun key hm => hr key (List.mem_cons_of_mem _ hm))
    · rw [he]
      exact List.mem_cons_self
    · rw [he]
      exact List.mem_cons_self

/-- A cycle without edges keeps the engine quiet and ends the last taps. -/
theorem Quiet.cycle (H : engine.Quiet) (now : Tick) :
    (engine.play (Move.ofCycle Edges.none now)).Quiet ∧
      ∀ key, ((engine.play (Move.ofCycle Edges.none now)).keyState key).latch = none ∧
        ((engine.play (Move.ofCycle Edges.none now)).keyState key).phase = .idle := by
  have hquiet : (engine.play (Move.ofCycle Edges.none now)).Quiet := by
    rw [Move.ofCycle_none]
    refine H.play (fun key now hm => ?_) fun key hm => ?_
    · simp [Move.polls] at hm
    · simp [Move.polls] at hm
  refine ⟨hquiet, fun key => ?_⟩
  have hunwound := unwound_cycle H.unwound Edges.none now (hquiet.up key)
  refine hunwound.resolve_right ?_
  rintro ⟨tap, -, hedge⟩
  rw [Edges.none, Slots.getElem_fill] at hedge
  cases hedge

theorem isEmpty_report (h : ∀ key : Key, engine.resolver.latched[key] = none) :
    engine.collectRequest.assemble.2.report.isEmpty = true := by
  have hemitting : engine.collectRequest.resolver.emitting = [] := Resolver.emitting_eq_nil h
  simp only [assemble, hemitting]
  rfl

theorem pending_collectRequest (hr : engine.resolver.request = none) (hp : engine.pending = none) :
    engine.collectRequest.assemble.1.pending = none := by
  change (engine.resolver.request <|> engine.pending) = none
  rw [hr, hp]
  rfl

/-! ## Runs -/

theorem unwound_run (h : Engine.new keymap settings = .ok engine) (inputs : List Input)
    (key : Key) : ((engine.run inputs).keyState key).Unwound := by
  obtain ⟨config, rfl⟩ := new_eq_ok h
  refine run_induction (P := fun engine => ∀ key, (engine.keyState key).Unwound)
    (fun _ _ H => H) (fun engine input H key => ?_) (fun _ move H => unwound_make H move)
    (fun _ H => H) (fun key _ => .inl ⟨?_, ?_⟩) inputs key
  · rw [keyState_started]
    exact H key
  · exact Slots.getElem_fill ..
  · exact Slots.getElem_fill ..

/-- No key and no layer gets stuck. After every cycle a key that is up has nothing latched and is
idle, or it is tapped and its release was handled in that cycle. If all keys are up and a cycle
without edges follows, then the report of that cycle is empty, every key is idle with nothing
latched, no layer is held, no config switch is pending and the layers active above base are the
toggled ones. -/
theorem no_stuck_keys_or_layers (keymap : Keymap) (settings : Settings) (engine : Engine)
    (inputs : List Input) (input : Input) (edges : Edges) (now : Tick)
    (h : Engine.new keymap settings = .ok engine)
    (hc : (engine.run inputs).cycleOf input = some (edges, now)) :
    ∃ after cycle, ((engine.run inputs).feed input).value = (after, some cycle) ∧
      (∀ key : Key, after.resolver.down[key] = false →
        (after.resolver.latched[key] = none ∧ after.tapHold.phases[key] = .idle) ∨
          ∃ tap, after.tapHold.phases[key] = .tapped tap ∧ edges[key] = some .released) ∧
      ((∀ key : Key, (engine.run inputs).resolver.down[key] = false) → edges = Edges.none →
        cycle.report.isEmpty = true ∧
        (∀ key : Key, after.resolver.latched[key] = none ∧ after.tapHold.phases[key] = .idle) ∧
        (∀ layer : Layer, after.resolver.holds[layer] = 0) ∧
        after.pending = none ∧
        ∀ layer : Layer, layer ≠ Layer.base →
          (after.resolver.layers.isActive layer = true ↔
            after.resolver.toggled[layer] = true)) := by
  have hfeed := feed_of_cycleOf hc
  have hreached := reached_run h (inputs ++ [input])
  rw [run_concat, hfeed] at hreached
  have hunwound : ∀ key, (((engine.run inputs).started input).keyState key).Unwound := by
    intro key
    rw [keyState_started]
    exact unwound_run h inputs key
  obtain ⟨played, hplayed⟩ : ∃ played, played =
    ((engine.run inputs).started input).play (Move.ofCycle edges now) := ⟨_, rfl⟩
  rw [← hplayed] at hfeed hreached
  refine ⟨_, _, hfeed, fun key hkey => ?_, fun hup he => ?_⟩
  · have hcycle := @unwound_cycle _ key hunwound edges now
    rw [← hplayed] at hcycle
    exact hcycle hkey
  · subst he
    have hquiet : ((engine.run inputs).started input).Quiet := by
      refine ⟨fun key => ?_, hunwound, ?_⟩
      · rw [keyState_started]
        exact hup key
      · rw [resolver_started]
        exact request_run h inputs
    obtain ⟨hafter, hidle⟩ := hquiet.cycle now
    have hpending := pending_play_ofCycle ((engine.run inputs).started input) Edges.none now
    rw [← hplayed] at hafter hidle hpending
    have hlatched : ∀ key : Key, played.resolver.latched[key] = none := fun key => (hidle key).1
    have hholds := hreached.counted.holds_eq_zero hlatched
    refine ⟨?_, hidle, hholds, ?_, fun layer hb => ?_⟩
    · exact isEmpty_report hlatched
    · exact pending_collectRequest hafter.request hpending
    · rw [Resolver.isActive_iff_of_syncedAt (hreached.syncedAt layer) hb, hholds layer]
      exact or_iff_right (Nat.lt_irrefl 0)

/-- A tap that toggles a layer, and the cycle without edges that ends it. -/
theorem no_stuck_keys_or_layers_tap :
    let keymap := Keymap.empty.set 0 Layer.base 3 (.tapHold (.layerToggle 1) (.layerHold 2))
    let inputs : List Input :=
      [.edges (Edges.none.set 3 (some .pressed)) 0, .edges (Edges.none.set 3 (some .released)) 1]
    ∃ engine after cycle, Engine.new keymap {} = .ok engine ∧
      (∀ key : Key, (engine.run inputs).resolver.down[key] = false) ∧
      ((engine.run inputs).feed (.edges Edges.none 2)).value = (after, some cycle) ∧
      cycle.report.isEmpty = true ∧
      (∀ key : Key, after.resolver.latched[key] = none ∧ after.tapHold.phases[key] = .idle) ∧
      (∀ layer : Layer, after.resolver.holds[layer] = 0) ∧
      after.pending = none ∧
      (after.resolver.layers.isActive 1 = true ↔ after.resolver.toggled[(1 : Layer)] = true) := by
  intro keymap inputs
  obtain ⟨engine, hnew⟩ : ∃ engine, Engine.new keymap {} = .ok engine := ⟨_, rfl⟩
  have hup : ∀ key : Key, (engine.run inputs).resolver.down[key] = false := by
    cases hnew
    decide +kernel
  obtain ⟨after, cycle, hfeed, -, hquiet⟩ := no_stuck_keys_or_layers keymap {} engine inputs
    (.edges Edges.none 2) Edges.none 2 hnew rfl
  obtain ⟨hreport, hidle, hholds, hpending, hlayers⟩ := hquiet hup rfl
  exact ⟨engine, after, cycle, hnew, hup, hfeed, hreport, hidle, hholds, hpending,
    hlayers 1 (by decide)⟩

end Engine

end Keystroke
