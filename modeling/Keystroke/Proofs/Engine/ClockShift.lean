import Keystroke.Proofs.Engine.Layers
import Keystroke.Proofs.Report

/-!
# The origin of the clock does not matter

An engine compares instants through `elapsed` alone, and moving two instants of a 32-bit clock by
the same offset keeps their distance. So a run whose ticks are all moved does what it did before.
Every type that remembers a tick has a `shift`; deeds, moves, inputs and runs commute with it
(`deed_shift`, `make_shift`, `feed_shift`, `run_shift`). An engine at rest remembers no tick, so that
a run of a new engine needs no shift at its start (`shift_of_new`).
-/

namespace Keystroke

def Change.shift (offset : Tick) (change : Change) : Change :=
  { change with since := change.since + offset }

def Cell.shift (offset : Tick) (cell : Cell) : Cell :=
  { cell with change := cell.change.map (·.shift offset) }

def Debouncer.shift (offset : Tick) (debouncer : Debouncer) : Debouncer :=
  { debouncer with cells := debouncer.cells.map (·.shift offset) }

/-- Only a pending key remembers a tick. -/
def TapHold.Phase.shift (offset : Tick) : Phase → Phase
  | .pending since tap hold => .pending (since + offset) tap hold
  | phase => phase

def TapHold.Machine.shift (offset : Tick) (machine : Machine) : Machine :=
  { machine with phases := machine.phases.map (·.shift offset) }

def Move.shift (offset : Tick) : Move → Move
  | .poll key now => .poll key (now + offset)
  | .press key now => .press key (now + offset)
  | move => move

def Deed.shift (offset : Tick) : Deed → Deed
  | .start key short long now => .start key short long (now + offset)
  | deed => deed

variable {offset now : Tick}

/-! ## Debouncing -/

theorem Change.extend_shift (change : Option Change) :
    extend (change.map (·.shift offset)) (now + offset) = (extend change now).shift offset := by
  cases change <;> rfl

theorem DebouncePolicy.accepts_shift (policy : DebouncePolicy) (change : Change) :
    policy.accepts (change.shift offset) (now + offset) = policy.accepts change now := by
  cases policy with
  | samples count => rfl
  | ticks count => simp only [accepts, Change.shift, elapsed_add_add]

theorem Cell.sample_shift (policy : DebouncePolicy) (cell : Cell) (raw : Bool) :
    (cell.shift offset).sample policy raw (now + offset) =
      ((cell.sample policy raw now).1.shift offset, (cell.sample policy raw now).2) := by
  unfold Cell.sample
  by_cases hraw : raw = cell.stable
  · rw [if_pos hraw, if_pos (show raw = (cell.shift offset).stable from hraw)]
    rfl
  · rw [if_neg hraw, if_neg (show ¬raw = (cell.shift offset).stable from hraw)]
    simp only [Cell.shift, Change.extend_shift, DebouncePolicy.accepts_shift]
    split <;> rfl

namespace Debouncer

theorem sampleAll_shift (debouncer : Debouncer) (levels : Levels) :
    ((debouncer.shift offset).sampleAll levels (now + offset)).value =
      ((debouncer.sampleAll levels now).value.1.shift offset,
        (debouncer.sampleAll levels now).value.2) := by
  have hcell : ∀ key : Key,
      (debouncer.shift offset).cells[key].sample (debouncer.shift offset).policy levels[key]
          (now + offset) =
        ((debouncer.cells[key].sample debouncer.policy levels[key] now).1.shift offset,
          (debouncer.cells[key].sample debouncer.policy levels[key] now).2) := by
    intro key
    rw [← Cell.sample_shift, shift, Slots.getElem_map]
  simp only [sampleAll, hcell]
  refine Prod.ext (congrArg (Debouncer.mk debouncer.policy) ?_) ?_
  · ext key : 1
    simp only [Slots.getElem_map, Slots.getElem_ofFn]
  · ext key : 1
    simp only [Slots.getElem_map, Slots.getElem_ofFn]

theorem isPressed_shift (debouncer : Debouncer) (key : Key) :
    (debouncer.shift offset).isPressed key = debouncer.isPressed key := by
  rw [isPressed, shift, Slots.getElem_map]
  rfl

theorem shift_new (policy : DebouncePolicy) : (new policy).shift offset = new policy := by
  refine congrArg (Debouncer.mk policy) ?_
  ext key : 1
  rw [new, Slots.getElem_map, Slots.getElem_fill]
  rfl

end Debouncer

/-! ## The tap-hold machine -/

namespace TapHold.Machine

theorem getElem_phases_shift (machine : Machine) (key : Key) :
    (machine.shift offset).phases[key] = machine.phases[key].shift offset :=
  Slots.getElem_map ..

theorem setPhase_shift (machine : Machine) (key : Key) (phase : Phase) :
    (machine.shift offset).setPhase key (phase.shift offset) =
      (machine.setPhase key phase).shift offset := by
  refine congrArg (Machine.mk machine.threshold machine.policy) ?_
  ext other : 1
  simp only [setPhase, shift, Slots.getElem_set, Slots.getElem_map]
  split <;> rfl

theorem shift_new (threshold : Tick) (policy : InterruptPolicy) :
    (new threshold policy).shift offset = new threshold policy := by
  refine congrArg (Machine.mk threshold policy) ?_
  ext key : 1
  rw [new, Slots.getElem_map, Slots.getElem_fill]
  rfl

end TapHold.Machine

/-! ## The engine -/

namespace Engine

def shift (offset : Tick) (engine : Engine) : Engine :=
  { engine with
    debouncer := engine.debouncer.shift offset
    tapHold := engine.tapHold.shift offset }

def Input.shift (offset : Tick) : Input → Input
  | .edges given now => .edges given (now + offset)
  | .levels given now => .levels given (now + offset)
  | .select config => .select config

theorem shift_of_new {keymap : Keymap} {settings : Settings} {engine : Engine}
    (h : Engine.new keymap settings = .ok engine) : engine.shift offset = engine := by
  obtain ⟨config, rfl⟩ := new_eq_ok h
  simp only [shift, Debouncer.shift_new, TapHold.Machine.shift_new]

variable (engine : Engine)

theorem deed_shift (move : Move) :
    (engine.shift offset).deed (move.shift offset) = (engine.deed move).shift offset := by
  have hphase : ∀ key : Key, (engine.shift offset).tapHold.phases[key] =
      engine.tapHold.phases[key].shift offset := engine.tapHold.getElem_phases_shift
  cases move with
  | switch =>
    change engine.deed .switch = _
    simp only [deed]
    split
    · rfl
    · split <;> rfl
  | poll key now =>
    simp only [Move.shift, deed, hphase]
    cases engine.tapHold.phases[key] with
    | idle | tapped tap | held hold => rfl
    | pending since tap hold =>
      simp only [TapHold.Phase.shift, elapsed_add_add]
      change (if engine.tapHold.threshold ≤ _ then _ else _) = _
      split <;> rfl
  | release key =>
    simp only [Move.shift, deed, hphase]
    cases engine.tapHold.phases[key] <;> rfl
  | interrupt key presser =>
    have hpolicy : (engine.shift offset).tapHold.policy = engine.tapHold.policy := rfl
    simp only [Move.shift, deed, hphase, hpolicy]
    cases engine.tapHold.policy with
    | timeoutOnly => rfl
    | holdOnOtherKeyPress =>
      cases engine.tapHold.phases[key] with
      | idle | tapped tap | held hold => rfl
      | pending since tap hold =>
        simp only [TapHold.Phase.shift]
        split <;> rfl
  | press key now =>
    -- what a key resolves to depends on the layers alone
    have hlookup : (engine.shift offset).lookup key = engine.lookup key := rfl
    simp only [Move.shift, deed, hlookup]
    cases engine.lookup key <;> rfl

theorem carryOut_shift (deed : Deed) :
    (engine.shift offset).carryOut (deed.shift offset) = (engine.carryOut deed).shift offset := by
  have hset : ∀ (key : Key) (phase : TapHold.Phase),
      (engine.tapHold.shift offset).setPhase key (phase.shift offset) =
        (engine.tapHold.setPhase key phase).shift offset := engine.tapHold.setPhase_shift
  cases deed with
  | wait | stay | press key action | release key => rfl
  | switch config =>
    simp only [Deed.shift, carryOut, shift, TapHold.Machine.reset, TapHold.Machine.shift_new]
    rfl
  | start key tap hold now =>
    simp only [Deed.shift, carryOut, shift, ← hset]
    rfl
  | tap key action | hold key action | endTap key | endHold key =>
    simp only [Deed.shift, carryOut, shift, ← hset]
    rfl

theorem make_shift (move : Move) : ((engine.shift offset).make (move.shift offset)).value =
    (engine.make move).value.shift offset := by
  rw [make_value, make_value, deed_shift, carryOut_shift]

theorem play_shift (moves : List Move) : (engine.shift offset).play (moves.map (·.shift offset)) =
    (engine.play moves).shift offset := by
  induction moves generalizing engine with
  | nil => rfl
  | cons move moves ih =>
    rw [List.map_cons, play_cons, play_cons, make_shift, ih]

theorem ofCycle_shift (edges : Edges) (now : Tick) :
    (Move.ofCycle edges now).map (·.shift offset) = Move.ofCycle edges (now + offset) := by
  simp only [Move.ofCycle, Move.polls, Move.releases, Move.pressesAll, Move.presses, List.map_cons,
    List.map_append, List.map_map, List.map_flatMap, List.map_nil]
  rfl

/-- The end of a cycle reads no clock. -/
theorem close_shift : (engine.shift offset).collectRequest.assemble =
    (engine.collectRequest.assemble.1.shift offset, engine.collectRequest.assemble.2) := rfl

theorem cycleOf_shift (input : Input) : (engine.shift offset).cycleOf (input.shift offset) =
    (engine.cycleOf input).map fun (edges, now) => (edges, now + offset) := by
  cases input with
  | edges | select => rfl
  | levels levels now =>
    simp only [cycleOf, Input.shift, shift, Debouncer.sampleAll_shift, Option.map_some]

theorem started_shift (input : Input) : (engine.shift offset).started (input.shift offset) =
    (engine.started input).shift offset := by
  cases input with
  | edges | select => rfl
  | levels levels now => simp only [started, Input.shift, shift, Debouncer.sampleAll_shift]

theorem feed_shift (input : Input) : ((engine.shift offset).feed (input.shift offset)).value =
    ((engine.feed input).value.1.shift offset, (engine.feed input).value.2) := by
  cases hc : engine.cycleOf input with
  | none =>
    obtain ⟨config, rfl⟩ := eq_select_of_cycleOf hc
    rfl
  | some pair =>
    obtain ⟨edges, now⟩ := pair
    have hshifted : (engine.shift offset).cycleOf (input.shift offset) =
        some (edges, now + offset) := by
      rw [cycleOf_shift, hc]
      rfl
    rw [feed_of_cycleOf hc, feed_of_cycleOf hshifted, started_shift, ← ofCycle_shift, play_shift,
      close_shift]

theorem run_shift (inputs : List Input) : (engine.shift offset).run (inputs.map (·.shift offset)) =
    (engine.run inputs).shift offset := by
  induction inputs generalizing engine with
  | nil => rfl
  | cons input inputs ih =>
    change ((engine.shift offset).feed (input.shift offset)).value.1.run _ = _
    rw [feed_shift]
    exact ih _

theorem cycles_shift (inputs : List Input) :
    (engine.shift offset).cycles (inputs.map (·.shift offset)) = engine.cycles inputs := by
  induction inputs generalizing engine with
  | nil => rfl
  | cons input inputs ih => rw [List.map_cons, cycles, cycles, feed_shift, ih]

/-! ## Two runs -/

/-- Two engines that differ in nothing but the ticks they remember; those of the second are later by
an offset. -/
structure ApartBy (offset : Tick) (engine moved : Engine) : Prop where
  keymap : moved.keymap = engine.keymap
  config : moved.config = engine.config
  pending : moved.pending = engine.pending
  layers : moved.layers = engine.layers
  resolver : moved.resolver = engine.resolver
  assembler : moved.assembler = engine.assembler
  levels : ∀ key, moved.debouncer.isPressed key = engine.debouncer.isPressed key
  phases : ∀ key : Key, moved.tapHold.phases[key] = engine.tapHold.phases[key].shift offset

theorem apartBy_shift (offset : Tick) : engine.ApartBy offset (engine.shift offset) where
  keymap := rfl
  config := rfl
  pending := rfl
  layers := rfl
  resolver := rfl
  assembler := rfl
  levels := engine.debouncer.isPressed_shift
  phases := engine.tapHold.getElem_phases_shift

/-- The wrap of the clock never matters. If the ticks of all inputs of a new engine are moved by the
same offset, modulo the size of the clock, then every input comes back with the same report, and
the engines after them differ only in when their pending keys were pressed: those ticks are moved
too. -/
theorem clock_origin_is_arbitrary (keymap : Keymap) (settings : Settings) (engine : Engine)
    (inputs : List Input) (offset : Tick) (h : Engine.new keymap settings = .ok engine) :
    engine.cycles (inputs.map (·.shift offset)) = engine.cycles inputs ∧
      (engine.run inputs).ApartBy offset (engine.run (inputs.map (·.shift offset))) := by
  have hnew : engine.shift offset = engine := shift_of_new h
  refine ⟨?_, ?_⟩
  · calc engine.cycles (inputs.map (·.shift offset))
        = (engine.shift offset).cycles (inputs.map (·.shift offset)) := by rw [hnew]
      _ = engine.cycles inputs := cycles_shift engine inputs
  · have hrun : engine.run (inputs.map (·.shift offset)) = (engine.run inputs).shift offset := by
      rw [← run_shift, hnew]
    rw [hrun]
    exact apartBy_shift _ offset

/-- A key is left pending that was pressed six ticks after the clock started, or five before it
wrapped. -/
theorem clock_origin_is_arbitrary_wrap :
    let keymap := Keymap.empty.set 0 Layer.base 3 (.tapHold (.emit .escape) (.layerHold 1))
    let settings : Settings :=
      { debounceSamples := 1, tapHoldTicks := 9, interruptPolicy := .timeoutOnly }
    let inputs : List Input := [.levels ((Slots.fill false).set 3 true) 6,
      .edges (Edges.none.set 4 (some .pressed)) 12, .select 1]
    let offset : Tick := 2 ^ 32 - 11
    ∃ engine, Engine.new keymap settings = .ok engine ∧
      (inputs.map (·.shift offset) = [.levels ((Slots.fill false).set 3 true) (2 ^ 32 - 5),
        .edges (Edges.none.set 4 (some .pressed)) 1, .select 1] ∧
      (engine.run inputs).tapHold.phases[(3 : Key)] = .pending 6 (.emit .escape) (.layerHold 1)) ∧
      engine.cycles (inputs.map (·.shift offset)) = engine.cycles inputs ∧
      (engine.run inputs).ApartBy offset (engine.run (inputs.map (·.shift offset))) := by
  intro keymap settings inputs offset
  obtain ⟨engine, hnew⟩ : ∃ engine, Engine.new keymap settings = .ok engine := ⟨_, rfl⟩
  refine ⟨engine, hnew, ⟨by decide +kernel, ?_⟩, ?_⟩
  · cases hnew
    decide +kernel
  · exact clock_origin_is_arbitrary keymap settings engine inputs offset hnew

end Engine

end Keystroke
