import Keystroke.Engine
import Keystroke.Proofs.Resolver.Effect
import Keystroke.Proofs.TapHold

/-!
# A cycle as a list of moves

A cycle visits the keys several times. Here it is cut into elementary moves, each about one key at
most: the switch that is due, the passing of time for each key, the releases, and for each press
the interruption of every key and then the press itself. `cycle_eq_moves` says that a cycle makes
the moves of `Move.ofCycle` in order and then collects the config request and assembles the report.
What is kept by every move is kept by every run (`run_induction`), and the states in the middle of
a cycle are those after the first of its moves (`Engine.play`).
-/

namespace Keystroke

/-- An elementary move of a cycle. -/
inductive Move where
  | switch
  | poll (key : Key) (now : Tick)
  | release (key : Key)
  | interrupt (key presser : Key)
  | press (key : Key) (now : Tick)
  deriving DecidableEq, Repr

namespace Move

/-- Time passes for every key. -/
def polls (now : Tick) : List Move := Key.all.map (poll · now)

/-- The keys with a release edge are let go. -/
def releases (edges : Edges) : List Move :=
  (Key.all.filter fun key => edges[key] = some .released).map release

/-- A key is pressed: it interrupts all keys and is looked up after that. -/
def presses (now : Tick) (presser : Key) : List Move :=
  Key.all.map (interrupt · presser) ++ [press presser now]

/-- The keys with a press edge are pressed. -/
def pressesAll (edges : Edges) (now : Tick) : List Move :=
  (Key.all.filter fun key => edges[key] = some .pressed).flatMap (presses now)

/-- The moves of a cycle. -/
def ofCycle (edges : Edges) (now : Tick) : List Move :=
  switch :: (polls now ++ releases edges ++ pressesAll edges now)

/-- No move handles an edge of the key. -/
structure EdgeFree (key : Key) (moves : List Move) : Prop where
  press : ∀ now, press key now ∉ moves
  release : release key ∉ moves

theorem EdgeFree.of_cons {key : Key} {move : Move} {moves : List Move}
    (h : EdgeFree key (move :: moves)) :
    (∀ now, move ≠ .press key now) ∧ move ≠ .release key ∧ EdgeFree key moves :=
  ⟨fun now he => h.press now (he ▸ List.mem_cons_self),
    fun he => h.release (he ▸ List.mem_cons_self),
    fun now hm => h.press now (List.mem_cons_of_mem _ hm),
    fun hm => h.release (List.mem_cons_of_mem _ hm)⟩

end Move

namespace Engine

/-- The tap-hold machine takes a step for one key, and what it decides is applied. -/
def advance (engine : Engine) (key : Key)
    (step : TapHold.Phase → TapHold.Phase × Option TapHold.Fired) : Logged Engine := do
  let (phase, fired) := step engine.tapHold.phases[key]
  let tapHold := { engine.tapHold with phases := engine.tapHold.phases.set key phase }
  let resolver ← engine.resolver.applyAll fired.toList
  pure { engine with tapHold, resolver }

/-- A key is looked up and its action applied, or its decision started. -/
def enter (engine : Engine) (key : Key) (now : Tick) : Logged Engine := do
  let (resolver, action) ← engine.resolver.resolvePress engine.keymap engine.config key
  match action with
  | .basic _ => pure { engine with resolver }
  | .tapHold tap hold => do
    let tapHold ← engine.tapHold.start key tap hold now
    pure { engine with tapHold, resolver }

/-- Makes one move. -/
def make (engine : Engine) : Move → Logged Engine
  | .switch => engine.applyPending
  | .poll key now => engine.advance key (TapHold.Phase.poll engine.tapHold.threshold now key)
  | .release key => engine.release key
  | .interrupt key presser =>
    match engine.tapHold.policy with
    | .holdOnOtherKeyPress => engine.advance key (TapHold.Phase.interrupt presser key)
    | .timeoutOnly => pure engine
  | .press key now => engine.enter key now

/-- The state after some moves. -/
def play (engine : Engine) (moves : List Move) : Engine :=
  moves.foldl (fun engine move => (engine.make move).value) engine

variable {engine : Engine} {edges : Edges} {now : Tick} {key : Key}

@[simp] theorem play_nil : engine.play [] = engine := rfl

@[simp] theorem play_cons {move : Move} {moves : List Move} :
    engine.play (move :: moves) = (engine.make move).value.play moves := rfl

@[simp] theorem play_append {moves more : List Move} :
    engine.play (moves ++ more) = (engine.play moves).play more :=
  List.foldl_append

/-! ## One step of the tap-hold machine for many keys -/

theorem applyAll_append (resolver : Resolver) (fired more : List TapHold.Fired) :
    resolver.applyAll (fired ++ more) =
      resolver.applyAll fired >>= fun resolver => resolver.applyAll more :=
  List.foldlM_append

/-- Advancing keys one after the other is one step of all of them followed by the application of
what was decided, because no key's step reads the phase of another. -/
theorem foldlM_advance (step : Key → TapHold.Phase → TapHold.Phase × Option TapHold.Fired)
    {keys : List Key} (hn : keys.Nodup) (engine : Engine) :
    keys.foldlM (fun engine key => engine.advance key (step key)) engine = (do
      let resolver ← engine.resolver.applyAll
        (keys.filterMap fun key => (step key engine.tapHold.phases[key]).2)
      pure { engine with
        tapHold := { engine.tapHold with
          phases := Slots.ofFn fun key => if key ∈ keys then (step key engine.tapHold.phases[key]).1
            else engine.tapHold.phases[key] }
        resolver }) := by
  induction keys generalizing engine with
  | nil =>
    have hphases : (Slots.ofFn fun key => engine.tapHold.phases[key]) = engine.tapHold.phases := by
      ext key
      rw [Slots.getElem_ofFn]
    simp only [List.not_mem_nil, if_false, hphases]
    rfl
  | cons key keys ih =>
    obtain ⟨hkey, hkeys⟩ := List.nodup_cons.mp hn
    have hfired : (key :: keys).filterMap (fun key => (step key engine.tapHold.phases[key]).2) =
        (step key engine.tapHold.phases[key]).2.toList ++
          keys.filterMap fun other => (step other (engine.tapHold.phases.set key
            (step key engine.tapHold.phases[key]).1)[other]).2 := by
      have hrest : keys.filterMap (fun other => (step other (engine.tapHold.phases.set key
            (step key engine.tapHold.phases[key]).1)[other]).2) =
          keys.filterMap fun other => (step other engine.tapHold.phases[other]).2 := by
        refine List.filterMap_congr fun other hother => ?_
        have hne : key ≠ other := fun he => hkey (he ▸ hother)
        rw [Slots.getElem_set_ne _ hne]
      rw [hrest]
      cases h : (step key engine.tapHold.phases[key]).2 <;> simp [h]
    have hphases : (Slots.ofFn fun other => if other ∈ keys then
            (step other (engine.tapHold.phases.set key
              (step key engine.tapHold.phases[key]).1)[other]).1
          else (engine.tapHold.phases.set key (step key engine.tapHold.phases[key]).1)[other]) =
        Slots.ofFn fun other => if other ∈ key :: keys then
          (step other engine.tapHold.phases[other]).1 else engine.tapHold.phases[other] := by
      ext other
      simp only [Slots.getElem_ofFn, List.mem_cons, Slots.getElem_set]
      by_cases he : key = other
      · subst he
        simp [hkey]
      · simp [he, Ne.symm he]
    rw [List.foldlM_cons, hfired, applyAll_append, ← hphases, bind_assoc, advance, bind_assoc]
    refine bind_congr fun resolver => ?_
    rw [pure_bind, ih hkeys]

/-- One step of the whole machine, with what it decides applied, is one move for every key. -/
theorem stepAll_eq (step : Key → TapHold.Phase → TapHold.Phase × Option TapHold.Fired)
    (engine : Engine) : (do
      let (tapHold, fired) := engine.tapHold.stepAll step
      let resolver ← engine.resolver.applyAll fired
      pure { engine with tapHold, resolver }) =
      Key.all.foldlM (fun engine key => engine.advance key (step key)) engine := by
  have hmachine : (engine.tapHold.stepAll step).1 = { engine.tapHold with
      phases := Slots.ofFn fun key => if key ∈ Key.all then (step key engine.tapHold.phases[key]).1
        else engine.tapHold.phases[key] } := by
    refine congrArg (TapHold.Machine.mk _ _) (Slots.ext fun key => ?_)
    rw [Slots.getElem_ofFn, if_pos (Key.mem_all key)]
    exact TapHold.Machine.stepAll_phases
  rw [foldlM_advance step Key.nodup_all, ← TapHold.Machine.stepAll_fired, ← hmachine]

/-! ## The stages of a cycle -/

/-- Two loops agree if their bodies do where an invariant of the loop holds. -/
theorem foldlM_congr_of_invariant {σ α : Type} {f g : σ → α → Logged σ} (I : σ → Prop)
    (hI : ∀ s a, I s → I (f s a).value) (h : ∀ s a, I s → f s a = g s a) {l : List α} {s : σ}
    (hs : I s) : l.foldlM f s = l.foldlM g s := by
  induction l generalizing s with
  | nil => rfl
  | cons a l ih =>
    rw [List.foldlM_cons, List.foldlM_cons, ← h s a hs]
    refine Logged.ext ?_ ?_
    · rw [Logged.value_bind, Logged.value_bind, ih (hI s a hs)]
    · rw [Logged.events_bind, Logged.events_bind, ih (hI s a hs)]

theorem poll_eq_moves (engine : Engine) (now : Tick) :
    engine.poll now = (Move.polls now).foldlM make engine := by
  have hpoll : engine.poll now = Key.all.foldlM (fun engine' key => engine'.advance key
      (TapHold.Phase.poll engine.tapHold.threshold now key)) engine :=
    stepAll_eq (TapHold.Phase.poll engine.tapHold.threshold now) engine
  rw [hpoll, Move.polls, List.foldlM_map]
  refine foldlM_congr_of_invariant (fun engine' => engine'.tapHold.threshold =
    engine.tapHold.threshold) (fun engine' key hI => ?_) (fun engine' key hI => ?_) rfl
  · exact hI
  · rw [make, hI]

theorem press_eq_moves (engine : Engine) (key : Key) (now : Tick) :
    engine.press key now = (Move.presses now key).foldlM make engine := by
  have hinterrupt : (do
      let (tapHold, fired) := engine.tapHold.interrupt key
      let resolver ← engine.resolver.applyAll fired
      pure { engine with tapHold, resolver }) =
        (Key.all.map (Move.interrupt · key)).foldlM make engine := by
    rw [List.foldlM_map]
    cases hp : engine.tapHold.policy with
    | holdOnOtherKeyPress =>
      have hstep : engine.tapHold.interrupt key =
          engine.tapHold.stepAll (TapHold.Phase.interrupt key) := by
        simp only [TapHold.Machine.interrupt, hp]
      rw [hstep]
      refine (stepAll_eq _ engine).trans (foldlM_congr_of_invariant
        (fun engine' => engine'.tapHold.policy = .holdOnOtherKeyPress)
        (fun engine' other hI => hI) (fun engine' other hI => ?_) hp)
      simp only [make, hI]
    | timeoutOnly =>
      have hstep : engine.tapHold.interrupt key = (engine.tapHold, []) := by
        simp only [TapHold.Machine.interrupt, hp]
      rw [hstep]
      refine Eq.trans ?_ (foldlM_congr_of_invariant
        (f := fun engine' _ => pure engine') (fun engine' => engine'.tapHold.policy = .timeoutOnly)
        (fun engine' other hI => hI) (fun engine' other hI => ?_) hp)
      · rw [List.foldlM_pure, List.foldl_fixed]
        rfl
      · simp only [make, hI]
  rw [Move.presses, List.foldlM_append, ← hinterrupt]
  simp only [bind_assoc, pure_bind, List.foldlM_cons, List.foldlM_nil, bind_pure, make, enter]
  rfl

theorem releaseAll_eq_moves (engine : Engine) (edges : Edges) :
    engine.releaseAll edges = (Move.releases edges).foldlM make engine := by
  rw [Move.releases, List.foldlM_map, List.foldlM_filter]
  simp only [releaseAll, make, decide_eq_true_eq]

theorem foldlM_flatMap {σ α β : Type} (f : σ → β → Logged σ) (g : α → List β) (l : List α)
    (s : σ) : (l.flatMap g).foldlM f s = l.foldlM (fun s a => (g a).foldlM f s) s := by
  induction l generalizing s with
  | nil => rfl
  | cons a l ih => simp only [List.flatMap_cons, List.foldlM_append, List.foldlM_cons, ih]

theorem pressAll_eq_moves (engine : Engine) (edges : Edges) (now : Tick) :
    engine.pressAll edges now = (Move.pressesAll edges now).foldlM make engine := by
  rw [Move.pressesAll, foldlM_flatMap, List.foldlM_filter]
  simp only [pressAll, press_eq_moves, decide_eq_true_eq]

/-- A cycle makes its moves in order, then collects the config request and assembles the report. -/
theorem cycle_eq_moves (engine : Engine) (edges : Edges) (now : Tick) :
    engine.cycle edges now = (do
      let engine ← (Move.ofCycle edges now).foldlM make engine
      pure engine.collectRequest.assemble) := by
  simp only [Move.ofCycle, List.foldlM_cons, List.foldlM_append, cycle, poll_eq_moves,
    releaseAll_eq_moves, pressAll_eq_moves, bind_assoc, make]

theorem poll_eq_play (engine : Engine) (now : Tick) :
    (engine.poll now).value = engine.play (Move.polls now) := by
  rw [poll_eq_moves, Logged.value_foldlM]
  rfl

theorem press_eq_play (engine : Engine) (key : Key) (now : Tick) :
    (engine.press key now).value = engine.play (Move.presses now key) := by
  rw [press_eq_moves, Logged.value_foldlM]
  rfl

theorem releaseAll_eq_play (engine : Engine) (edges : Edges) :
    (engine.releaseAll edges).value = engine.play (Move.releases edges) := by
  rw [releaseAll_eq_moves, Logged.value_foldlM]
  rfl

theorem cycle_value (engine : Engine) (edges : Edges) (now : Tick) :
    (engine.cycle edges now).value =
      (engine.play (Move.ofCycle edges now)).collectRequest.assemble := by
  rw [cycle_eq_moves, Logged.value_bind, Logged.value_pure, Logged.value_foldlM]
  rfl

/-! ## Runs -/

/-- The edges on which an input runs a cycle, and the tick of that cycle. -/
def cycleOf (engine : Engine) : Input → Option (Edges × Tick)
  | .edges edges now => some (edges, now)
  | .levels levels now => some ((engine.debouncer.sampleAll levels now).value.2, now)
  | .select _ => none

theorem eq_select_of_cycleOf {engine : Engine} {input : Input} (h : engine.cycleOf input = none) :
    ∃ config, input = .select config := by
  cases input with
  | select config => exact ⟨config, rfl⟩
  | edges | levels => cases h

/-- The engine that the cycle of an input starts from: raw levels have been debounced. -/
def started (engine : Engine) : Input → Engine
  | .levels levels now =>
    { engine with debouncer := (engine.debouncer.sampleAll levels now).value.1 }
  | _ => engine

section
variable (engine : Engine) (input : Input)

theorem resolver_started : (engine.started input).resolver = engine.resolver := by
  cases input <;> rfl

theorem tapHold_started : (engine.started input).tapHold = engine.tapHold := by
  cases input <;> rfl

theorem keymap_started : (engine.started input).keymap = engine.keymap := by
  cases input <;> rfl

theorem config_started : (engine.started input).config = engine.config := by
  cases input <;> rfl

theorem pending_started : (engine.started input).pending = engine.pending := by
  cases input <;> rfl

end

/-- An input with a cycle makes the moves of that cycle. -/
theorem feed_of_cycleOf {engine : Engine} {input : Input} {edges : Edges} {now : Tick}
    (h : engine.cycleOf input = some (edges, now)) :
    (engine.feed input).value =
      (((engine.started input).play (Move.ofCycle edges now)).collectRequest.assemble.1,
        some ((engine.started input).play (Move.ofCycle edges now)).collectRequest.assemble.2) := by
  cases input with
  | edges given at' =>
    cases h
    rw [← cycle_value]
    rfl
  | levels given at' =>
    cases h
    rw [← cycle_value]
    rfl
  | select config => cases h

theorem run_append (engine : Engine) (inputs more : List Input) :
    engine.run (inputs ++ more) = (engine.run inputs).run more :=
  List.foldl_append

theorem run_concat (engine : Engine) (inputs : List Input) (input : Input) :
    engine.run (inputs ++ [input]) = ((engine.run inputs).feed input).value.1 :=
  run_append engine inputs [input]

/-- What every move of a list keeps is kept by the list. -/
theorem play_induction {P : Engine → Prop} (hmove : ∀ engine move, P engine →
    P (engine.make move).value) (h : P engine) (moves : List Move) : P (engine.play moves) := by
  induction moves generalizing engine with
  | nil => exact h
  | cons move moves ih => exact ih (hmove engine move h)

/-- What is kept by every move, by the start and the end of a cycle and by a request for a config
is kept by every run. -/
theorem run_induction {P : Engine → Prop}
    (hselect : ∀ engine config, P engine → P (engine.select config))
    (hstarted : ∀ engine input, P engine → P (engine.started input))
    (hmove : ∀ engine move, P engine → P (engine.make move).value)
    (hclose : ∀ engine, P engine → P engine.collectRequest.assemble.1)
    (h : P engine) (inputs : List Input) : P (engine.run inputs) := by
  induction inputs generalizing engine with
  | nil => exact h
  | cons input inputs ih =>
    refine ih ?_
    change P (engine.feed input).value.1
    cases hc : engine.cycleOf input with
    | none =>
      obtain ⟨config, rfl⟩ := eq_select_of_cycleOf hc
      exact hselect engine config h
    | some pair =>
      rw [feed_of_cycleOf hc]
      exact hclose _ (play_induction hmove (hstarted engine input h) _)

end Engine

end Keystroke
