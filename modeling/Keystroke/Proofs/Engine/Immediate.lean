import Keystroke.Proofs.Engine.Authored
import Keystroke.Proofs.Engine.ClockShift
import Keystroke.Proofs.Engine.Coupling

/-!
# Keymaps without tap-hold entries

If every entry takes effect at once, no key ever leaves its idle phase, so that an engine neither
compares instants to decide keys nor asks what a press does to other keys. Two engines that differ
in their tap-hold settings then stay alike (`Engine.Alike`) through every move, even if the moves
are made at different ticks. The only other reader of the clock is a debouncer that goes by time;
inputs that it cannot tell apart (`Engine.Input.AlikeFor`) show the same (`Alike.appearances_eq`).
-/

namespace Keystroke

/-- The entry is no tap-hold pair. -/
def Action.isImmediate : Action → Bool
  | basic _ => true
  | tapHold _ _ => false

/-- No entry of any config is a tap-hold pair. -/
def Keymap.Immediate (keymap : Keymap) : Prop :=
  ∀ (config : Config) (layer : Layer) (key : Key),
    (keymap.lookup config layer key).isImmediate = true

theorem Keymap.Immediate.resolve_eq_basic {keymap : Keymap} (H : keymap.Immediate)
    (config : Config) (layers : LayerStack) (key : Key) :
    ∃ action, keymap.resolve config layers key = .basic action := by
  cases h : keymap.resolve config layers key with
  | basic action => exact ⟨action, rfl⟩
  | tapHold tap hold =>
    obtain ⟨layer, hlookup⟩ := exists_lookup_of_resolve h
    have hentry := H config layer key
    rw [hlookup] at hentry
    cases hentry

/-! ## Debouncing -/

/-- The policy goes by the clock. -/
def DebouncePolicy.isTimed : DebouncePolicy → Bool
  | samples _ => false
  | ticks _ => true

/-- Two cells that a policy cannot tell apart: they differ at most in when a run began, and that
only if the policy does not go by the clock. -/
structure Cell.AlikeFor (policy : DebouncePolicy) (cell other : Cell) : Prop where
  stable : other.stable = cell.stable
  count : other.change.map Change.count = cell.change.map Change.count
  timed : policy.isTimed = true → other = cell

theorem Change.count_extend {change other : Option Change} (now now' : Tick)
    (h : other.map Change.count = change.map Change.count) :
    (extend other now').count = (extend change now).count := by
  cases change with
  | none =>
    rw [Option.map_eq_none_iff.mp h]
    rfl
  | some change =>
    obtain ⟨found, rfl, hcount⟩ := Option.map_eq_some_iff.mp h
    simp only [extend, hcount]

theorem Cell.AlikeFor.sample {policy : DebouncePolicy} {cell other : Cell} {now now' : Tick}
    (H : cell.AlikeFor policy other) (raw : Bool) (h : policy.isTimed = true → now' = now) :
    (other.sample policy raw now').2 = (cell.sample policy raw now).2 ∧
      (cell.sample policy raw now).1.AlikeFor policy (other.sample policy raw now').1 := by
  cases policy with
  | ticks count =>
    rw [H.timed rfl, h rfl]
    exact ⟨rfl, rfl, rfl, fun _ => rfl⟩
  | samples count =>
    have hcount := Change.count_extend now now' H.count
    have haccepts : (DebouncePolicy.samples count).accepts (Change.extend other.change now') now' =
        (DebouncePolicy.samples count).accepts (Change.extend cell.change now) now := by
      simp only [DebouncePolicy.accepts, hcount]
    unfold Cell.sample
    rw [H.stable]
    split
    · exact ⟨rfl, rfl, rfl, fun h => absurd h Bool.false_ne_true⟩
    · simp only [haccepts]
      split
      · exact ⟨rfl, rfl, rfl, fun h => absurd h Bool.false_ne_true⟩
      · exact ⟨rfl, rfl, congrArg some hcount, fun h => absurd h Bool.false_ne_true⟩

/-- Two debouncers that cannot be told apart by their policy. -/
structure Debouncer.Alike (debouncer other : Debouncer) : Prop where
  policy : other.policy = debouncer.policy
  cells : ∀ key : Key, debouncer.cells[key].AlikeFor debouncer.policy other.cells[key]

theorem Debouncer.alike_refl (debouncer : Debouncer) : debouncer.Alike debouncer :=
  ⟨rfl, fun _ => ⟨rfl, rfl, fun _ => rfl⟩⟩

theorem Debouncer.Alike.sampleAll {debouncer other : Debouncer} {now now' : Tick}
    (H : debouncer.Alike other) (levels : Levels)
    (h : debouncer.policy.isTimed = true → now' = now) :
    (other.sampleAll levels now').value.2 = (debouncer.sampleAll levels now).value.2 ∧
      (debouncer.sampleAll levels now).value.1.Alike (other.sampleAll levels now').value.1 := by
  have hcell := fun key : Key => (H.cells key).sample levels[key] h
  refine ⟨?_, H.policy, fun key => ?_⟩
  · ext key : 1
    simp only [Debouncer.sampleAll, Slots.getElem_map, Slots.getElem_ofFn, H.policy]
    exact (hcell key).1
  · simp only [Debouncer.sampleAll, Slots.getElem_map, Slots.getElem_ofFn, H.policy]
    exact (hcell key).2

namespace Engine

/-- Two engines in which every key is idle and which differ at most in their tap-hold settings and
in their debouncers. -/
structure Alike (engine other : Engine) : Prop where
  keymap : other.keymap = engine.keymap
  config : other.config = engine.config
  pending : other.pending = engine.pending
  resolver : other.resolver = engine.resolver
  assembler : other.assembler = engine.assembler
  idle : ∀ key : Key, engine.tapHold.phases[key] = .idle ∧ other.tapHold.phases[key] = .idle

/-- The same input to all but the clock, and to the clock as well if the policy goes by it: the
ticks may differ, except those of raw levels under such a policy. -/
inductive Input.AlikeFor (policy : DebouncePolicy) : Input → Input → Prop
  | edges {given : Edges} {now now' : Tick} :
      AlikeFor policy (.edges given now) (.edges given now')
  | levels {given : Levels} {now now' : Tick} : (policy.isTimed = true → now' = now) →
      AlikeFor policy (.levels given now) (.levels given now')
  | select {chosen : Config} : AlikeFor policy (.select chosen) (.select chosen)

/-- What shows of an engine after an input. -/
structure Appearance where
  cycle : Option Cycle
  config : Config
  layers : List Layer
  latched : PerKey (Option BasicAction)
  holds : PerLayer Nat
  toggled : PerLayer Bool
  deriving DecidableEq

def appearance (engine : Engine) (cycle : Option Cycle) : Appearance where
  cycle
  config := engine.config
  layers := engine.layers
  latched := engine.resolver.latched
  holds := engine.resolver.holds
  toggled := engine.resolver.toggled

/-- What shows of an engine after each input of a list. -/
def appearances (engine : Engine) : List Input → List Appearance
  | [] => []
  | input :: inputs =>
    (engine.feed input).value.1.appearance (engine.feed input).value.2 ::
      (engine.feed input).value.1.appearances inputs

variable {engine other : Engine} {keymap : Keymap} {policy : DebouncePolicy}

/-! ## Moves -/

/-- A move is the same deed in both engines, whenever it is made, and it touches no phase. -/
theorem Alike.make (H : engine.Alike other) (hk : engine.keymap.Immediate) (move : Move)
    (offset : Tick) :
    (engine.make move).value.Alike (other.make (move.shift offset)).value := by
  rw [make_value, make_value]
  cases move with
  | switch =>
    have hdeed : other.deed (Move.switch.shift offset) = engine.deed .switch := by
      simp only [Move.shift, deed, H.pending, H.config]
    rw [hdeed]
    cases hp : engine.pending with
    | none =>
      simp only [deed, hp]
      exact { H with pending := rfl }
    | some config =>
      simp only [deed, hp]
      split
      · exact { H with pending := rfl }
      · refine ⟨H.keymap, rfl, rfl, ?_, H.assembler, fun key => ?_⟩
        · simp only [carryOut, H.resolver]
        · exact ⟨Slots.getElem_fill _ key, Slots.getElem_fill _ key⟩
  | poll key now =>
    simp only [Move.shift, deed, (H.idle key).1, (H.idle key).2]
    exact H
  | interrupt key presser =>
    have hwait : ∀ engine : Engine, engine.tapHold.phases[key] = .idle →
        engine.deed (.interrupt key presser) = .wait := by
      intro engine hidle
      cases hp : engine.tapHold.policy <;> simp only [deed, hp, hidle]
    simp only [Move.shift, hwait engine (H.idle key).1, hwait other (H.idle key).2]
    exact H
  | release key =>
    simp only [Move.shift, deed, (H.idle key).1, (H.idle key).2]
    exact { H with resolver := by simp only [carryOut, H.resolver] }
  | press key now =>
    have hsame : other.lookup key = engine.lookup key := by
      simp only [lookup, H.keymap, H.config, H.resolver]
    obtain ⟨action, haction⟩ := hk.resolve_eq_basic engine.config engine.resolver.layers key
    have hlookup : engine.lookup key = .basic action := haction
    simp only [Move.shift, deed, hsame, hlookup]
    exact { H with resolver := by simp only [carryOut, H.resolver] }

theorem Alike.play (H : engine.Alike other) (hk : engine.keymap.Immediate) (moves : List Move)
    (offset : Tick) : (engine.play moves).Alike (other.play (moves.map (·.shift offset))) := by
  induction moves generalizing engine other with
  | nil => exact H
  | cons move moves ih =>
    have hkept : (engine.make move).value.keymap = engine.keymap := by
      rw [make_value, keymap_carryOut]
    exact ih (H.make hk move offset) (hkept ▸ hk)

/-! ## Runs -/

/-- The end of a cycle is the same in both engines. -/
theorem Alike.close (H : engine.Alike other) :
    engine.collectRequest.assemble.1.Alike other.collectRequest.assemble.1 ∧
      other.collectRequest.assemble.2 = engine.collectRequest.assemble.2 := by
  have hcollect : engine.collectRequest.Alike other.collectRequest := by
    refine ⟨H.keymap, H.config, ?_, ?_, H.assembler, H.idle⟩
    · simp only [collectRequest, Resolver.takeRequest, H.resolver, H.pending]
    · simp only [collectRequest, Resolver.takeRequest, H.resolver]
  have hreport : other.collectRequest.resolver.report = engine.collectRequest.resolver.report :=
    congrArg Resolver.report hcollect.resolver
  have hlast : other.collectRequest.lastReport = engine.collectRequest.lastReport :=
    congrArg Assembler.last hcollect.assembler
  rw [assemble_eq, assemble_eq, hreport, hlast]
  exact ⟨{ hcollect with assembler := rfl }, rfl⟩

theorem Alike.started (H : engine.Alike other) (input input' : Input) :
    (engine.started input).Alike (other.started input') := by
  have hkept : ∀ (engine : Engine) (input : Input), engine.started input =
      { engine with debouncer := (engine.started input).debouncer } := by
    intro engine input
    cases input <;> rfl
  rw [hkept engine input, hkept other input']
  exact { H with }

/-- A cycle on the same edges comes to the same, at whatever tick. -/
theorem Alike.feed_of_cycleOf {input input' : Input} {edges : Edges} {now now' : Tick}
    (H : engine.Alike other) (hk : engine.keymap.Immediate)
    (h : engine.cycleOf input = some (edges, now))
    (h' : other.cycleOf input' = some (edges, now')) :
    (engine.feed input).value.1.Alike (other.feed input').value.1 ∧
      (other.feed input').value.2 = (engine.feed input).value.2 := by
  have hkeymap : (engine.started input).keymap.Immediate := by rwa [keymap_started]
  have hplay := (H.started input input').play hkeymap (Move.ofCycle edges now) (now' - now)
  have hnow : now + (now' - now) = now' := by grind
  rw [ofCycle_shift, hnow] at hplay
  rw [Engine.feed_of_cycleOf h, Engine.feed_of_cycleOf h']
  exact ⟨hplay.close.1, congrArg some hplay.close.2⟩

/-- Debouncing is all that an input does to the debouncer. -/
theorem debouncer_feed (engine : Engine) (input : Input) :
    (engine.feed input).value.1.debouncer = (engine.started input).debouncer := by
  cases hc : engine.cycleOf input with
  | none =>
    obtain ⟨config, rfl⟩ := eq_select_of_cycleOf hc
    rfl
  | some pair =>
    rw [Engine.feed_of_cycleOf hc, debouncer_close, debouncer_play]

theorem keymap_close (engine : Engine) :
    engine.collectRequest.assemble.1.keymap = engine.keymap := rfl

theorem keymap_feed (engine : Engine) (input : Input) :
    (engine.feed input).value.1.keymap = engine.keymap := by
  cases hc : engine.cycleOf input with
  | none =>
    obtain ⟨config, rfl⟩ := eq_select_of_cycleOf hc
    rfl
  | some pair =>
    rw [Engine.feed_of_cycleOf hc, keymap_close, keymap_play, keymap_started]

theorem Alike.feed {input input' : Input} (H : engine.Alike other) (hk : engine.keymap.Immediate)
    (hd : engine.debouncer.Alike other.debouncer)
    (hi : input.AlikeFor engine.debouncer.policy input') :
    (engine.feed input).value.1.Alike (other.feed input').value.1 ∧
      (engine.feed input).value.1.debouncer.Alike (other.feed input').value.1.debouncer ∧
      (other.feed input').value.2 = (engine.feed input).value.2 := by
  rw [debouncer_feed, debouncer_feed]
  cases hi with
  | select => exact ⟨{ H with pending := rfl }, hd, rfl⟩
  | @edges given now now' =>
    have hc : engine.cycleOf (.edges given now) = some (given, now) := rfl
    have hc' : other.cycleOf (.edges given now') = some (given, now') := rfl
    obtain ⟨halike, hcycle⟩ := H.feed_of_cycleOf hk hc hc'
    exact ⟨halike, hd, hcycle⟩
  | @levels given now now' hnow =>
    obtain ⟨hedges, hdebouncer⟩ := hd.sampleAll given hnow
    have hc : engine.cycleOf (.levels given now) =
        some ((engine.debouncer.sampleAll given now).value.2, now) := rfl
    have hc' : other.cycleOf (.levels given now') =
        some ((engine.debouncer.sampleAll given now).value.2, now') := by
      rw [cycleOf, hedges]
    obtain ⟨halike, hcycle⟩ := H.feed_of_cycleOf hk hc hc'
    exact ⟨halike, hdebouncer, hcycle⟩

theorem Alike.appearance_eq (H : engine.Alike other) (cycle : Option Cycle) :
    other.appearance cycle = engine.appearance cycle := by
  simp only [appearance, layers, H.config, H.resolver]

theorem Alike.appearances_eq (H : engine.Alike other) (hk : engine.keymap.Immediate)
    (hd : engine.debouncer.Alike other.debouncer) (hp : engine.debouncer.policy = policy)
    {inputs inputs' : List Input} (hi : List.Forall₂ (Input.AlikeFor policy) inputs inputs') :
    other.appearances inputs' = engine.appearances inputs := by
  induction hi generalizing engine other with
  | nil => rfl
  | @cons input input' _ _ hinput _ ih =>
    obtain ⟨halike, hdebouncer, hcycle⟩ := H.feed hk hd (hp ▸ hinput)
    have hkeymap := keymap_feed engine input
    have hpolicy : (engine.feed input).value.1.debouncer.policy = policy := by
      rw [debouncer_feed]
      cases input <;> exact hp
    rw [appearances, appearances, hcycle, halike.appearance_eq,
      ih halike (hkeymap ▸ hk) hdebouncer hpolicy]

/-- New engines are alike if their settings differ only in how tap-hold keys are decided. -/
theorem alike_of_new {settings settings' : Settings}
    (h : Engine.new keymap settings = .ok engine) (h' : Engine.new keymap settings' = .ok other)
    (hinitial : settings'.initial = settings.initial)
    (hpolicy : settings'.debouncePolicy = settings.debouncePolicy) :
    engine.Alike other ∧ engine.debouncer.Alike other.debouncer := by
  rw [Engine.new] at h h'
  rw [hinitial] at h'
  cases hc : settings.initial with
  | error e =>
    rw [hc] at h
    cases h
  | ok config =>
    rw [hc] at h h'
    cases h
    cases h'
    refine ⟨⟨rfl, rfl, rfl, rfl, rfl, fun key => ?_⟩, ?_⟩
    · exact ⟨Slots.getElem_fill _ key, Slots.getElem_fill _ key⟩
    · rw [hpolicy]
      exact Debouncer.alike_refl _

/-- The tap-hold settings leave no trace on a keymap without tap-hold entries. Let two settings
differ in nothing else. Then the two engines, or the refusals to start one, are the same to see:
after every input the same cycle, config, layers, latches, hold counts and toggles. The inputs may
come at other ticks as well, except that raw levels must come at the same ticks if debouncing
goes by the clock. -/
theorem tap_hold_settings_leave_no_trace (keymap : Keymap) (settings : Settings)
    (threshold : Tick) (interrupts : InterruptPolicy) (h : keymap.Immediate) :
    let other : Settings :=
      { settings with tapHoldTicks := threshold, interruptPolicy := interrupts }
    let shown (settings : Settings) (inputs : List Input) :=
      (Engine.new keymap settings).map (·.appearances inputs)
    (∀ inputs, shown other inputs = shown settings inputs) ∧
    ∀ inputs inputs',
      List.Forall₂ (Input.AlikeFor settings.debouncePolicy) inputs inputs' →
      shown other inputs' = shown settings inputs := by
  intro other shown
  have hshown : ∀ inputs inputs',
      List.Forall₂ (Input.AlikeFor settings.debouncePolicy) inputs inputs' →
      shown other inputs' = shown settings inputs := by
    intro inputs inputs' hi
    cases hc : settings.initial with
    | error e =>
      have hrefused : Engine.new keymap settings = .error e ∧
          Engine.new keymap other = .error e := by
        rw [Engine.new, Engine.new, show other.initial = settings.initial from rfl, hc]
        exact ⟨rfl, rfl⟩
      simp only [shown, hrefused]
      rfl
    | ok config =>
      obtain ⟨engine, hengine⟩ : ∃ engine, Engine.new keymap settings = .ok engine :=
        ⟨_, by rw [Engine.new, hc]; rfl⟩
      obtain ⟨engine', hengine'⟩ : ∃ engine, Engine.new keymap other = .ok engine :=
        ⟨_, by rw [Engine.new, show other.initial = settings.initial from rfl, hc]; rfl⟩
      obtain ⟨halike, hdebouncer⟩ := alike_of_new hengine hengine' rfl rfl
      obtain ⟨hkeymap, hpolicy⟩ : engine.keymap = keymap ∧
          engine.debouncer.policy = settings.debouncePolicy := by
        obtain ⟨_, rfl⟩ := new_eq_ok hengine
        exact ⟨rfl, rfl⟩
      simp only [shown, hengine, hengine']
      exact congrArg Except.ok
        (halike.appearances_eq (hkeymap.symm ▸ h) hdebouncer hpolicy hi)
  refine ⟨fun inputs => hshown inputs inputs (List.forall₂_same.mpr fun input _ => ?_), hshown⟩
  cases input with
  | edges => exact .edges
  | levels => exact .levels fun _ => rfl
  | select => exact .select

/-- A layer is held, a key of it pressed and the config switched, and again at ticks that have
nothing to do with the first ones. -/
theorem tap_hold_settings_leave_no_trace_retimed :
    let keymap := ((Keymap.empty.set 0 Layer.base 3 (.basic (.layerHold 1))).set 0 1 5
      (.emit .b)).set 0 Layer.base 5 (.basic (.combined 3 .c .d))
    let settings : Settings := { debounceSamples := 1 }
    let other : Settings := { settings with tapHoldTicks := 0, interruptPolicy := .timeoutOnly }
    let held : Levels := (Slots.fill false).set 3 true
    let press : Edges := Edges.none.set 5 (some .pressed)
    let inputs : List Input :=
      [.levels held 0, .edges press 1, .select 2, .edges Edges.none 2]
    let retimed : List Input :=
      [.levels held 7, .edges press 4294967295, .select 2, .edges Edges.none 7]
    keymap.Immediate ∧ List.Forall₂ (Input.AlikeFor settings.debouncePolicy) inputs retimed ∧
      (Engine.new keymap other).map (·.appearances retimed) =
        (Engine.new keymap settings).map (·.appearances inputs) ∧
      ∃ engine, Engine.new keymap settings = .ok engine ∧
        (engine.appearances inputs).map (fun shown => (shown.layers, shown.latched[(5 : Key)])) =
          [([1, 0], none), ([1, 0], some (.emit .b)), ([1, 0], some (.emit .b)), ([0], none)] := by
  intro keymap settings other held press inputs retimed
  have himmediate : keymap.Immediate := by
    unfold Keymap.Immediate
    decide +kernel
  have hinputs : List.Forall₂ (Input.AlikeFor settings.debouncePolicy) inputs retimed :=
    .cons (.levels nofun) (.cons .edges (.cons .select (.cons .edges .nil)))
  obtain ⟨-, hretimed⟩ :=
    tap_hold_settings_leave_no_trace keymap settings 0 .timeoutOnly himmediate
  refine ⟨himmediate, hinputs, hretimed inputs retimed hinputs, _, rfl, ?_⟩
  decide +kernel

end Engine

end Keystroke
