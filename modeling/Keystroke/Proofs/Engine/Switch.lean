import Keystroke.Proofs.Engine.Course
import Keystroke.Proofs.Engine.Layers
import Keystroke.Proofs.Report

/-!
# Nothing leaks across a config switch

A switch to another config clears all that keys have in effect and keeps what is known of their
levels. So a key that is down across the switch has nothing in effect any more, and since only its
own press can give it something (`bare_make`), that stays so until its next press. Its release in
between finds nothing to undo (`make_release_of_bare`).

The statement follows a run move by move, along its `Engine.course`.
-/

namespace Keystroke

namespace Resolver

variable {resolver : Resolver} {key : Key}

/-- What is held while nothing is latched for a key is held by the other keys. -/
theorem Counted.holds_of_latched_none (H : resolver.Counted) (h : resolver.latched[key] = none)
    (layer : Layer) : resolver.holds[layer] = (Key.all.filter (· ≠ key)).countP
      fun other => resolver.latched[other] = some (.layerHold layer) := by
  rw [H layer, holders, List.countP_filter]
  refine List.countP_congr fun other _ => ?_
  simp only [decide_eq_true_eq, Bool.and_eq_true, ne_eq, iff_self_and]
  rintro hlatch rfl
  rw [h] at hlatch
  cases hlatch

end Resolver

namespace Engine

/-- The engine uses a config with nothing in effect: only the base layer is active, nothing is held,
toggled, latched or pending, and no config is asked for. -/
structure Fresh (engine : Engine) (config : Config) : Prop where
  config : engine.config = config
  pending : engine.pending = none
  request : engine.resolver.request = none
  layers : engine.layers = [Layer.base]
  holds : ∀ layer : Layer, engine.resolver.holds[layer] = 0
  toggled : ∀ layer : Layer, engine.resolver.toggled[layer] = false
  latched : ∀ key : Key, engine.resolver.latched[key] = none
  phases : ∀ key : Key, engine.tapHold.phases[key] = .idle

/-- A key has nothing in effect: nothing is latched for it and it is idle, and what is emitted and
held is emitted and held by the other keys. -/
structure Without (engine : Engine) (key : Key) : Prop where
  latch : engine.resolver.latched[key] = none
  phase : engine.tapHold.phases[key] = .idle
  codes : engine.resolver.emitting = (Key.all.filter (· ≠ key)).flatMap engine.resolver.codesOf
  holds : ∀ layer : Layer, engine.resolver.holds[layer] = (Key.all.filter (· ≠ key)).countP
    fun other => engine.resolver.latched[other] = some (.layerHold layer)

/-- A key with nothing in effect, in a state that a history leads to. -/
structure Bare (engine : Engine) (key : Key) : Prop where
  reached : engine.resolver.Reached
  latch : (engine.keyState key).latch = none
  phase : (engine.keyState key).phase = .idle

variable {engine : Engine} {keymap : Keymap} {settings : Settings} {key : Key} {move : Move}
  {input : Input} {edges : Edges} {now : Tick} {config : Config}

theorem Bare.without (H : engine.Bare key) : engine.Without key :=
  ⟨H.latch, H.phase, Resolver.emitting_of_latched_none H.latch,
    H.reached.counted.holds_of_latched_none H.latch⟩

/-! ## The switch -/

theorem fresh_switch (engine : Engine) (config : Config) :
    (engine.carryOut (.switch config)).Fresh config where
  config := rfl
  pending := rfl
  request := rfl
  layers := rfl
  holds layer := Slots.getElem_fill 0 layer
  toggled layer := Slots.getElem_fill false layer
  latched key := Slots.getElem_fill none key
  phases key := Slots.getElem_fill TapHold.Phase.idle key

theorem bare_switch (H : engine.resolver.Reached) (config : Config) (key : Key) :
    (engine.carryOut (.switch config)).Bare key :=
  ⟨H.resetClear, (fresh_switch engine config).latched key,
    (fresh_switch engine config).phases key⟩

/-! ## After the switch -/

/-- Only the press of a key gives it something. -/
theorem bare_make (H : engine.Bare key) (hp : move.pressed? ≠ some key) :
    (engine.make move).value.Bare key := by
  have hreached : (engine.make move).value.resolver.Reached := by
    rw [make_value]
    exact reached_carryOut H.reached (due_deed engine move)
  have hcause := causedBy_deed engine move
  have hstep := keyStep_make engine move key
  have hstate : ((engine.make move).value.keyState key).latch = none ∧
      ((engine.make move).value.keyState key).phase = .idle := by
    generalize engine.deed move = deed at hcause hstep
    generalize (engine.make move).value.keyState key = after at hstep
    cases hstep with
    | keep => exact ⟨H.latch, H.phase⟩
    | switch | endTap | endHold => exact ⟨rfl, rfl⟩
    | release => exact ⟨rfl, H.phase⟩
    | start =>
      rw [show move = _ from hcause] at hp
      exact absurd rfl hp
    | press =>
      obtain ⟨now, rfl⟩ := hcause
      exact absurd rfl hp
    | tap hphase | hold hphase =>
      rw [H.phase] at hphase
      cases hphase
  exact ⟨hreached, hstate.1, hstate.2⟩

/-- A key with nothing in effect answers to its press and its release alone. -/
theorem eq_release_of_bare (H : engine.Bare key) (hp : move.pressed? ≠ some key)
    (hd : (engine.deed move).key? = some key) : move = .release key := by
  have hdue := due_deed engine move
  have hcause := causedBy_deed engine move
  generalize engine.deed move = deed at hdue hcause hd
  cases deed with
  | wait | stay | switch config => cases hd
  | tap other | endHold other | release other =>
    cases hd
    exact hcause
  | start other tap hold now =>
    cases hd
    rw [show move = _ from hcause] at hp
    exact absurd rfl hp
  | press other action =>
    cases hd
    obtain ⟨now, rfl⟩ := hcause
    exact absurd rfl hp
  | hold other action =>
    cases hd
    obtain ⟨since, tap, hphase⟩ := hdue
    rw [H.phase] at hphase
    cases hphase
  | endTap other =>
    cases hd
    obtain ⟨tap, hphase⟩ := hdue
    rw [H.phase] at hphase
    cases hphase

/-- The release of a key with nothing in effect changes its level and nothing else. -/
theorem make_release_of_bare (H : engine.Bare key) : (engine.make (.release key)).value =
    { engine with resolver := engine.resolver.mark key false } := by
  have hphase : engine.tapHold.phases[key] = .idle := H.phase
  have hlatch : (engine.resolver.mark key false).latched[key] = none := H.latch
  rw [make_value]
  simp only [deed, hphase, carryOut]
  rw [Resolver.release_of_none hlatch]

/-! ## Up to the next press -/

/-- The key has nothing in effect up to its next press among some moves, and in the state that they
lead to if there is none. -/
structure BareUntilPress (key : Key) (moments : List Moment) (final : Engine) : Prop where
  before : ∀ moment ∈ moments.takeWhile (·.move.pressed? ≠ some key), moment.state.Bare key
  final : (∀ moment ∈ moments, moment.move.pressed? ≠ some key) → final.Bare key

theorem BareUntilPress.append {moments more : List Moment} {middle final : Engine}
    (H : BareUntilPress key moments middle)
    (h : middle.Bare key → BareUntilPress key more final) :
    BareUntilPress key (moments ++ more) final := by
  by_cases hnone : ∀ moment ∈ moments, moment.move.pressed? ≠ some key
  · have hmore := h (H.final hnone)
    have hwhile : moments.takeWhile (·.move.pressed? ≠ some key) = moments := by
      rw [List.takeWhile_eq_self_iff]
      simpa using hnone
    refine ⟨fun moment hm => ?_, fun hall => ?_⟩
    · rw [List.takeWhile_append_of_pos (by simpa using hnone)] at hm
      rcases List.mem_append.mp hm with hm | hm
      · exact H.before moment (hwhile.symm ▸ hm)
      · exact hmore.before moment hm
    · exact hmore.final fun moment hm => hall moment (List.mem_append_right _ hm)
  · refine ⟨fun moment hm => ?_, fun hall => ?_⟩
    · rw [List.takeWhile_append, if_neg] at hm
      · exact H.before moment hm
      · intro hlength
        have hwhile := (List.takeWhile_prefix _).eq_of_length hlength
        rw [List.takeWhile_eq_self_iff] at hwhile
        exact hnone (by simpa using hwhile)
    · exact absurd (fun moment hm => hall moment (List.mem_append_left _ hm)) hnone

theorem bareUntilPress_moments (H : engine.Bare key) (moves : List Move) :
    BareUntilPress key (engine.moments moves) (engine.play moves) := by
  induction moves generalizing engine with
  | nil => exact ⟨List.forall_mem_nil _, fun _ => H⟩
  | cons move moves ih =>
    by_cases hp : move.pressed? = some key
    · refine ⟨?_, fun hnone => absurd hp (hnone ⟨engine, move⟩ List.mem_cons_self)⟩
      rw [moments, List.takeWhile_cons_of_neg (by simp [hp])]
      exact List.forall_mem_nil _
    · have hrest := ih (bare_make H hp)
      refine ⟨fun moment hm => ?_, fun hnone => ?_⟩
      · rw [moments, List.takeWhile_cons_of_pos (by simp [hp])] at hm
        rcases List.mem_cons.mp hm with rfl | hm
        · exact H
        · exact hrest.before moment hm
      · exact hrest.final fun moment hm => hnone moment (List.mem_cons_of_mem _ hm)

theorem bare_started (H : engine.Bare key) (input : Input) : (engine.started input).Bare key := by
  refine ⟨?_, ?_, ?_⟩
  · rw [resolver_started]
    exact H.reached
  · rw [keyState_started]
    exact H.latch
  · rw [keyState_started]
    exact H.phase

theorem bare_close (H : engine.Bare key) : engine.collectRequest.assemble.1.Bare key :=
  ⟨H.reached.own .takeRequest rfl, H.latch, H.phase⟩

/-- What a key is left with after the moves of an input it is left with after the input. -/
theorem bare_feed (H : ((engine.started input).play (engine.movesOf input)).Bare key) :
    (engine.feed input).value.1.Bare key := by
  rw [movesOf] at H
  cases hc : engine.cycleOf input with
  | none =>
    rw [hc] at H
    obtain ⟨config, rfl⟩ := eq_select_of_cycleOf hc
    exact ⟨H.reached, H.latch, H.phase⟩
  | some pair =>
    rw [hc] at H
    rw [feed_of_cycleOf hc]
    exact bare_close H

theorem bareUntilPress_course (H : engine.Bare key) (inputs : List Input) :
    BareUntilPress key (engine.course inputs) (engine.run inputs) := by
  induction inputs generalizing engine with
  | nil => exact ⟨List.forall_mem_nil _, fun _ => H⟩
  | cons input inputs ih =>
    apply (bareUntilPress_moments (bare_started H input) (engine.movesOf input)).append
    intro hplayed
    exact ih (bare_feed hplayed)

/-- Nothing leaks across a config switch. A cycle in which a switch to another config is due first
clears the engine and keeps the debounced levels and the keys that are down. In every run that
follows and for every key, those that were down among them, nothing of the key is in effect until
its next press: it answers to no move but its release, and that changes its level and nothing
else. -/
theorem switch_leaves_nothing (keymap : Keymap) (settings : Settings) (engine : Engine)
    (inputs : List Input) (input : Input) (edges : Edges) (now : Tick) (config : Config)
    (h : Engine.new keymap settings = .ok engine)
    (hc : (engine.run inputs).cycleOf input = some (edges, now))
    (hpending : (engine.run inputs).pending = some config)
    (hne : config ≠ (engine.run inputs).config) :
    let before := (engine.run inputs).started input
    let cleared := (before.make .switch).value
    (cleared.Fresh config ∧ cleared.debouncer = before.debouncer ∧
      cleared.resolver.down = (engine.run inputs).resolver.down) ∧
    ∀ later : List Input, ∃ trail,
      (engine.run inputs).course (input :: later) = ⟨before, .switch⟩ :: trail ∧
      trail.head?.map (·.state) = some cleared ∧
      ∀ key : Key,
        (∀ moment ∈ trail.takeWhile (·.move.pressed? ≠ some key),
          moment.state.Without key ∧ moment.after.Without key ∧
          ((moment.state.deed moment.move).key? = some key → moment.move = .release key) ∧
          (moment.move = .release key → moment.after =
            { moment.state with resolver := moment.state.resolver.mark key false })) ∧
        ((∀ moment ∈ trail, moment.move.pressed? ≠ some key) →
          (engine.run (inputs ++ input :: later)).Without key) := by
  intro before cleared
  have hswitch : cleared = before.carryOut (.switch config) := by
    apply make_switch_of_pending
    · cases input <;> exact hpending
    · cases input <;> exact hne
  have hreached : before.resolver.Reached := by
    have hrun := reached_run h inputs
    rwa [← resolver_started] at hrun
  refine ⟨⟨?_, ?_, ?_⟩, fun later => ?_⟩
  · rw [hswitch]
    exact fresh_switch before config
  · rw [hswitch]
    rfl
  · rw [hswitch]
    change before.resolver.down = _
    rw [resolver_started]
  · obtain ⟨moves, hmoves⟩ : ∃ moves, Move.ofCycle edges now = .switch :: moves := ⟨_, rfl⟩
    have hcourse : (engine.run inputs).course (input :: later) = ⟨before, .switch⟩ ::
        (cleared.moments moves ++ ((engine.run inputs).feed input).value.1.course later) := by
      rw [course, movesOf, hc]
      simp only [hmoves, moments, List.cons_append]
      rfl
    refine ⟨_, hcourse, ?_, fun key => ?_⟩
    · cases hmoves
      rfl
    · have hbare : cleared.Bare key := by
        rw [hswitch]
        exact bare_switch hreached config key
      have htrail : BareUntilPress key
          (cleared.moments moves ++ ((engine.run inputs).feed input).value.1.course later)
          (engine.run (inputs ++ input :: later)) := by
        apply (bareUntilPress_moments hbare moves).append
        intro hplayed
        have hfeed : ((engine.run inputs).feed input).value.1.Bare key := by
          apply bare_feed
          rw [movesOf, hc]
          simpa only [hmoves, play_cons] using hplayed
        rw [run_append]
        exact bareUntilPress_course hfeed later
      refine ⟨fun moment hm => ?_, fun hnone => (htrail.final hnone).without⟩
      have hpressed : moment.move.pressed? ≠ some key := by
        simpa using List.mem_takeWhile_imp hm
      have hmoment := htrail.before moment hm
      have hafter : moment.after.Bare key := bare_make hmoment hpressed
      refine ⟨hmoment.without, hafter.without, eq_release_of_bare hmoment hpressed, fun he => ?_⟩
      rw [Moment.after, he]
      exact make_release_of_bare hmoment

/-- A key holds a layer while another one asks for config 1. It is let go two cycles later, when the
layer is long gone. -/
theorem switch_leaves_nothing_hold :
    let keymap := (Keymap.empty.set 0 Layer.base 3 (.basic (.layerHold 1))).set 0 Layer.base 5
      (.basic (.configSwitch 1))
    let held : Levels := (Slots.fill false).set 3 true
    let inputs : List Input := [.levels (held.set 5 true) 0]
    let following : List Input := [.levels held 1, .levels (Slots.fill false) 2]
    ∃ engine, Engine.new keymap { debounceSamples := 1 } = .ok engine ∧
      (engine.run inputs).pending = some 1 ∧ 1 ≠ (engine.run inputs).config ∧
      (engine.run inputs).resolver.latched[(3 : Key)] = some (.layerHold 1) ∧
      (((engine.run inputs).started (.levels held 1)).make .switch).value.Fresh 1 ∧
      (∃ moment ∈ (engine.run inputs).course following, moment.move = .release 3 ∧
        moment.after = { moment.state with resolver := moment.state.resolver.mark 3 false }) ∧
      (engine.run (inputs ++ following)).Without 3 := by
  intro keymap held inputs following
  obtain ⟨engine, hnew⟩ : ∃ engine, Engine.new keymap { debounceSamples := 1 } = .ok engine :=
    ⟨_, rfl⟩
  have hpending : (engine.run inputs).pending = some 1 := by
    cases hnew
    decide +kernel
  have hne : 1 ≠ (engine.run inputs).config := by
    cases hnew
    decide +kernel
  have hlatched : (engine.run inputs).resolver.latched[(3 : Key)] = some (.layerHold 1) := by
    cases hnew
    decide +kernel
  have hpressed : ∀ move ∈ ((engine.run inputs).course following).map (·.move),
      move.pressed? ≠ some 3 := by
    cases hnew
    decide +kernel
  have hreleased : .release 3 ∈ (((engine.run inputs).course following).map (·.move)).tail := by
    cases hnew
    decide +kernel
  obtain ⟨⟨hfresh, -, -⟩, hlater⟩ := switch_leaves_nothing keymap _ engine inputs (.levels held 1)
    _ 1 1 hnew rfl hpending hne
  obtain ⟨trail, hcourse, -, htrail⟩ := hlater [.levels (Slots.fill false) 2]
  obtain ⟨hbefore, hfinal⟩ := htrail 3
  change (engine.run inputs).course following = _ at hcourse
  rw [hcourse] at hpressed hreleased
  have hnone : ∀ moment ∈ trail, moment.move.pressed? ≠ some 3 := fun moment hm =>
    hpressed _ (List.mem_map_of_mem (List.mem_cons_of_mem _ hm))
  have hwhile : trail.takeWhile (·.move.pressed? ≠ some 3) = trail := by
    rw [List.takeWhile_eq_self_iff]
    simpa using hnone
  rw [hwhile] at hbefore
  obtain ⟨moment, hm, hmove⟩ := List.mem_map.mp hreleased
  have hrelease := (hbefore moment hm).2.2.2 hmove
  refine ⟨engine, hnew, hpending, hne, hlatched, hfresh, ⟨moment, ?_, hmove, hrelease⟩,
    hfinal hnone⟩
  rw [hcourse]
  exact List.mem_cons_of_mem _ hm

end Engine

end Keystroke
