import Keystroke.Proofs.Engine.Coupling
import Keystroke.Proofs.Report

/-!
# A plain base layer

If the base layer of the config in use has nothing but transparent entries, codes and chords, then
no layer, no decision and no config request ever comes up, and what is latched mirrors the keys that
are down (`Plain`). Every move keeps that, so that a report depends on the debounced levels alone:
it is `Keymap.plainReport` of them.
-/

namespace Keystroke

/-- The action is transparent or emits codes. -/
def BasicAction.isPlain : BasicAction → Bool
  | noOp | emit _ | chord _ => true
  | _ => false

/-- The entry takes effect at once and is transparent or emits codes. -/
def Action.isPlain : Action → Bool
  | basic action => action.isPlain
  | tapHold _ _ => false

/-- The codes of an entry that takes effect at once. -/
def Action.codes : Action → List KeyCode
  | basic action => action.codes
  | tapHold _ _ => []

/-- The codes on the base layer of the keys that are pressed, in key order and without repeats. -/
def Keymap.plainReport (keymap : Keymap) (config : Config) (pressed : Key → Bool) : List KeyCode :=
  ((Key.all.filter pressed).flatMap fun key =>
    (keymap.lookup config Layer.base key).codes).eraseDups

namespace Resolver

variable {resolver : Resolver} {key : Key} {action : BasicAction}

theorem undo_of_plain (h : action.isPlain = true) : resolver.undo action = resolver := by
  cases action with
  | noOp | emit | chord | layerToggle | configSwitch | combined => rfl
  | layerHold => cases h

theorem outcome_of_plain (h : action.isPlain = true) : resolver.outcome action = action := by
  cases action with
  | combined => cases h
  | _ => rfl

theorem perform_of_plain (h : action.isPlain = true) :
    (resolver.perform action).value = resolver := by
  cases action with
  | noOp | emit | chord => rfl
  | _ => cases h

/-- The release of a plain action clears its latch and does nothing else. -/
theorem release_of_plain (h : ∀ action, resolver.latched[key] = some action →
      action.isPlain = true) :
    (resolver.release key).value.1 = { resolver with latched := resolver.latched.set key none } := by
  cases hl : resolver.latched[key] with
  | none => rw [release_of_none hl, ← hl, Slots.set_getElem_self]
  | some action => rw [release_of_some hl, undo_of_plain (h action hl)]

/-- The press of a plain action latches it and does nothing else. -/
theorem press_of_plain (h : ∀ action, resolver.latched[key] = some action → action.isPlain = true)
    (ha : action.isPlain = true) : (resolver.press key action).value =
      { resolver with latched := resolver.latched.set key (some action) } := by
  rw [press_value, outcome_of_plain ha, perform_of_plain ha, release_of_plain h]

end Resolver

namespace Engine

/-- The engine uses the config, no layer above base is active and nothing else is asked for, and
what is latched are the entries of the base layer for the keys that are down. -/
structure Plain (engine : Engine) (keymap : Keymap) (config : Config) : Prop where
  table : engine.keymap = keymap
  current : engine.config = config
  pending : ∀ other, engine.pending = some other → other = config
  request : engine.resolver.request = none
  layers : engine.resolver.layers = {}
  idle : ∀ key : Key, engine.tapHold.phases[key] = .idle
  up : ∀ key : Key, engine.resolver.down[key] = false → engine.resolver.latched[key] = none
  down : ∀ key : Key, engine.resolver.down[key] = true → ∃ action,
    keymap.lookup config Layer.base key = .basic action ∧
      engine.resolver.latched[key] = some action

variable {engine : Engine} {keymap : Keymap} {settings : Settings} {config : Config} {key : Key}

theorem Plain.latched_eq (H : engine.Plain keymap config) {action : BasicAction}
    (h : engine.resolver.latched[key] = some action) :
    keymap.lookup config Layer.base key = .basic action := by
  cases hd : engine.resolver.down[key] with
  | false =>
    rw [H.up key hd] at h
    cases h
  | true =>
    obtain ⟨entry, hentry, hlatched⟩ := H.down key hd
    rw [hentry, Option.some.inj (hlatched.symm.trans h)]

/-! ## Moves -/

/-- The press or the release of a key sets its level and what is latched for it. -/
theorem Plain.set (H : engine.Plain keymap config) (key : Key) (level : Bool)
    {latch : Option BasicAction} (hup : level = false → latch = none)
    (hdown : level = true → ∃ action, keymap.lookup config Layer.base key = .basic action ∧
      latch = some action) :
    ({ engine with resolver := { engine.resolver.mark key level with
        latched := engine.resolver.latched.set key latch } } : Engine).Plain keymap config where
  table := H.table
  current := H.current
  pending := H.pending
  request := H.request
  layers := H.layers
  idle := H.idle
  up other hother := by
    change (engine.resolver.down.set key level)[other] = false at hother
    change (engine.resolver.latched.set key latch)[other] = none
    rw [Slots.getElem_set] at hother ⊢
    by_cases he : key = other
    · rw [if_pos he] at hother ⊢
      exact hup hother
    · rw [if_neg he] at hother ⊢
      exact H.up other hother
  down other hother := by
    change (engine.resolver.down.set key level)[other] = true at hother
    change ∃ action, _ ∧ (engine.resolver.latched.set key latch)[other] = some action
    rw [Slots.getElem_set] at hother ⊢
    by_cases he : key = other
    · rw [if_pos he] at hother ⊢
      subst he
      exact hdown hother
    · rw [if_neg he] at hother ⊢
      exact H.down other hother

theorem Plain.make (H : engine.Plain keymap config)
    (hplain : ∀ key, (keymap.lookup config Layer.base key).isPlain = true) (move : Move) :
    (engine.make move).value.Plain keymap config := by
  have hlatched : ∀ (key : Key) (level : Bool) (action : BasicAction),
      (engine.resolver.mark key level).latched[key] = some action → action.isPlain = true := by
    intro key level action hl
    have hkey := hplain key
    rwa [H.latched_eq hl] at hkey
  rw [make_value]
  cases move with
  | switch =>
    have hstay : engine.deed .switch = .stay := by
      cases hp : engine.pending with
      | none => simp only [deed, hp]
      | some other =>
        have he : other = engine.config := (H.pending other hp).trans H.current.symm
        simp only [deed, hp, if_pos he]
    rw [hstay]
    refine { H with pending := fun other he => ?_ }
    cases he
  | poll key now =>
    simp only [deed, H.idle key]
    exact H
  | interrupt key presser =>
    cases hp : engine.tapHold.policy with
    | timeoutOnly | holdOnOtherKeyPress =>
      simp only [deed, hp, H.idle key]
      exact H
  | release key =>
    simp only [deed, H.idle key, carryOut]
    rw [Resolver.release_of_plain (hlatched key false)]
    exact H.set key false (fun _ => rfl) fun he => absurd he Bool.false_ne_true
  | press key now =>
    have hlookup : engine.lookup key = keymap.lookup config Layer.base key := by
      rw [lookup, H.table, H.current, H.layers]
      exact Keymap.resolve_of_transparent (List.forall_mem_nil _)
    have hkey := hplain key
    cases hentry : keymap.lookup config Layer.base key with
    | tapHold tap hold =>
      rw [hentry] at hkey
      cases hkey
    | basic action =>
      rw [hentry] at hkey
      simp only [deed, hlookup, hentry, carryOut]
      rw [Resolver.press_of_plain (hlatched key true) hkey]
      exact H.set key true (fun he => absurd he.symm Bool.false_ne_true) fun _ =>
        ⟨action, hentry, rfl⟩

/-! ## Runs -/

theorem Plain.select (H : engine.Plain keymap config) : (engine.select config).Plain keymap config :=
  { H with pending := fun _ he => (Option.some.inj he).symm }

theorem Plain.started (H : engine.Plain keymap config) (input : Input) :
    (engine.started input).Plain keymap config := by
  cases input with
  | edges | select => exact H
  | levels levels now => exact { H with }

theorem Plain.close (H : engine.Plain keymap config) :
    engine.collectRequest.assemble.1.Plain keymap config := by
  refine { H with pending := fun other he => H.pending other ?_, request := rfl }
  change (engine.resolver.request <|> engine.pending) = some other at he
  rwa [H.request] at he

/-- The input samples raw levels or asks for the config itself. -/
def Input.KeepsTo (config : Config) : Input → Prop
  | .edges .. => False
  | .levels .. => True
  | .select other => other = config

theorem Plain.feed (H : engine.Plain keymap config)
    (hplain : ∀ key, (keymap.lookup config Layer.base key).isPlain = true) {input : Input}
    (hinput : input.KeepsTo config) : (engine.feed input).value.1.Plain keymap config := by
  cases hc : engine.cycleOf input with
  | none =>
    obtain ⟨other, rfl⟩ := eq_select_of_cycleOf hc
    obtain rfl : other = config := hinput
    exact H.select
  | some pair =>
    rw [feed_of_cycleOf hc]
    have hplay := play_induction (P := fun engine => engine.Plain keymap config)
      (fun _ move H => H.make hplain move) (H.started input) (Move.ofCycle pair.1 pair.2)
    exact hplay.close

theorem plain_run (h : Engine.new keymap settings = .ok engine) (hc : settings.initial = .ok config)
    (hplain : ∀ key, (keymap.lookup config Layer.base key).isPlain = true) {inputs : List Input}
    (hinputs : ∀ input ∈ inputs, input.KeepsTo config) :
    (engine.run inputs).Plain keymap config := by
  induction inputs using List.reverseRecOn with
  | nil =>
    rw [Engine.new, hc] at h
    cases h
    refine ⟨rfl, rfl, fun other he => ?_, rfl, rfl, fun key => Slots.getElem_fill _ key,
      fun key _ => Slots.getElem_fill _ key, fun key hdown => ?_⟩
    · cases he
    · simp [run, Resolver.new] at hdown
  | append_singleton inputs input ih =>
    rw [run_concat]
    exact (ih fun earlier hm => hinputs earlier (List.mem_append_left _ hm)).feed hplain
      (hinputs input (by simp))

theorem Plain.codes (H : engine.Plain keymap config) :
    (Key.all.flatMap engine.resolver.codesOf).eraseDups =
      keymap.plainReport config fun key => engine.resolver.down[key] := by
  refine congrArg List.eraseDups ?_
  induction Key.all with
  | nil => rfl
  | cons key keys ih =>
    rw [List.flatMap_cons, ih]
    cases hd : engine.resolver.down[key] with
    | false =>
      rw [Resolver.codesOf_of_latched_none (H.up key hd), List.filter_cons_of_neg (by simp [hd])]
      rfl
    | true =>
      obtain ⟨action, hentry, hlatched⟩ := H.down key hd
      rw [Resolver.codesOf_of_latched hlatched, List.filter_cons_of_pos (by simp [hd]),
        List.flatMap_cons, hentry]
      rfl

/-- On a plain base layer an engine is a function of the debounced levels. Let the base layer of the
config to start with have nothing but transparent entries, codes and chords, whatever the rest of
the keymap, and let the engine be fed raw levels and asked for no other config. Then after every
cycle only the base layer is active, no key is tracked as a tap or a hold, the config is the same,
and the report has the codes of the keys that are debounced as pressed, in key order and without
repeats. -/
theorem plain_base_is_stateless (keymap : Keymap) (settings : Settings) (config : Config)
    (engine : Engine) (inputs : List Input) (levels : Levels) (now : Tick)
    (h : Engine.new keymap settings = .ok engine) (hc : settings.initial = .ok config)
    (hplain : ∀ key, (keymap.lookup config Layer.base key).isPlain = true)
    (hinputs : ∀ input ∈ inputs, input.KeepsTo config) :
    let after := ((engine.run inputs).feed (.levels levels now)).value.1
    after.layers = [Layer.base] ∧ (∀ key : Key, after.tapHold.phases[key] = .idle) ∧
      after.config = config ∧
      ∃ cycle, ((engine.run inputs).feed (.levels levels now)).value.2 = some cycle ∧
        cycle.report.codes = keymap.plainReport config after.debouncer.isPressed := by
  intro after
  have hall : ∀ input ∈ inputs ++ [.levels levels now], input.KeepsTo config := by
    intro input hm
    rcases List.mem_append.mp hm with hm | hm
    · exact hinputs input hm
    · obtain rfl := List.mem_singleton.mp hm
      trivial
  have hraw : ∀ input ∈ inputs ++ [.levels levels now], input.givesEdges = false := by
    intro input hm
    cases input with
    | edges => cases hall _ hm
    | levels | select => rfl
  have H := plain_run h hc hplain hall
  have T := tracked_run h hraw
  rw [run_concat] at H T
  have hcycle : ((engine.run inputs).feed (.levels levels now)).value.2 =
      some ((engine.run inputs).scan levels now).value.2 := rfl
  refine ⟨?_, H.idle, H.current, _, hcycle, ?_⟩
  · change after.resolver.layers.order = _
    rw [H.layers]
    rfl
  · rw [codes_feed hcycle, H.codes]
    exact congrArg (keymap.plainReport config) (funext T.level)

/-- A chord is pressed before a key of lower index that emits one of its codes. Layer 1 and config 1
are not plain. -/
theorem plain_base_is_stateless_chord :
    let keymap := (((Keymap.empty.set 0 Layer.base 3 (.emit .a)).set 0 Layer.base 5
      (.basic (.chord (.pair .leftCtrl .a)))).set 0 1 3 (.tapHold (.emit .b) (.layerHold 2))).set 1
      Layer.base 5 (.basic (.configSwitch 2))
    let chord : Levels := (Slots.fill false).set 5 true
    let inputs : List Input := [.levels chord 0, .levels chord 1, .select 0,
      .levels (chord.set 3 true) 2]
    ∃ engine, Engine.new keymap { debounceSamples := 2 } = .ok engine ∧
      (∀ key, (keymap.lookup 0 Layer.base key).isPlain = true) ∧
      let after := ((engine.run inputs).feed (.levels (chord.set 3 true) 3)).value.1
      after.layers = [Layer.base] ∧ after.config = 0 ∧
      ∃ cycle, ((engine.run inputs).feed (.levels (chord.set 3 true) 3)).value.2 = some cycle ∧
        cycle.report.codes = keymap.plainReport 0 after.debouncer.isPressed ∧
        keymap.plainReport 0 after.debouncer.isPressed = [.a, .leftCtrl] := by
  intro keymap chord inputs
  obtain ⟨engine, hnew⟩ : ∃ engine, Engine.new keymap { debounceSamples := 2 } = .ok engine :=
    ⟨_, rfl⟩
  have hplain : ∀ key, (keymap.lookup 0 Layer.base key).isPlain = true := by decide +kernel
  have hinputs : ∀ input ∈ inputs, input.KeepsTo 0 := by simp [inputs, Input.KeepsTo]
  obtain ⟨hlayers, -, hconfig, cycle, hcycle, hcodes⟩ := plain_base_is_stateless keymap _ 0 engine
    inputs (chord.set 3 true) 3 hnew rfl hplain hinputs
  refine ⟨engine, hnew, hplain, hlayers, hconfig, cycle, hcycle, hcodes, ?_⟩
  cases hnew
  decide +kernel

end Engine

end Keystroke
