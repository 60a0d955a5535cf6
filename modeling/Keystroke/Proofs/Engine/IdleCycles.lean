import Keystroke.Proofs.Engine.Requests
import Keystroke.Proofs.Report

/-!
# Cycles without edges

A cycle without edges applies a config switch that is due and then lets time pass, which comes to a
deed for each key that none of the others bears on (`cycle_none_value`). For a key that is the end
of its tap, or its hold once it has been pending for the threshold, or nothing (`IdleStep`).

Between two cycles an engine is `Closed`: its report is that of its latches, and the resolver has
passed its request on. So if nothing is due, the cycle ends in the very state it started from
(`cycle_none_eq_self_iff`), and such cycles can be left out of a run (`run_idleInputs`).
-/

namespace Keystroke

/-- Nothing is due for a key: no tap of it ends, and if it is pending, the threshold has not
passed. -/
structure KeyState.Waits (threshold now : Tick) (s : KeyState) : Prop where
  tapped : ∀ action, s.phase ≠ .tapped action
  pending : ∀ since tap hold, s.phase = .pending since tap hold → elapsed now since < threshold

/-- What a cycle without edges makes of a key. -/
inductive IdleStep (threshold now : Tick) : KeyState → KeyState → Prop where
  | tap : s.phase = .tapped action → IdleStep threshold now s ⟨s.down, none, .idle⟩
  | hold : s.phase = .pending since tap action → threshold ≤ elapsed now since →
      action.ComesOutAs latched →
      IdleStep threshold now s ⟨s.down, some latched, .held action⟩
  | wait : s.Waits threshold now → IdleStep threshold now s s

/-- What is due for a key changes it. -/
theorem IdleStep.waits {threshold now : Tick} {s s' : KeyState} (h : IdleStep threshold now s s')
    (hs : s' = s) : s.Waits threshold now := by
  cases h with
  | tap hphase | hold hphase =>
    rw [← hs] at hphase
    cases hphase
  | wait h => exact h

namespace Engine

/-- Cycles without edges at consecutive ticks. -/
def idleInputs (start : Tick) : Nat → List Input
  | 0 => []
  | n + 1 => .edges Edges.none start :: idleInputs (start + 1) n

/-- The state between two cycles. -/
structure Closed (engine : Engine) : Prop where
  request : engine.resolver.request = none
  assembler : engine.assembler = ⟨engine.resolver.report, engine.resolver.report⟩

variable {engine : Engine} {keymap : Keymap} {settings : Settings} {key : Key} {now start : Tick}
  {config : Config} {n : Nat}

/-! ## Between two cycles -/

/-- Both reports that the assembler keeps are that of the latches. -/
theorem assembler_run (h : Engine.new keymap settings = .ok engine) (inputs : List Input) :
    (engine.run inputs).assembler =
      ⟨(engine.run inputs).resolver.report, (engine.run inputs).resolver.report⟩ := by
  induction inputs using List.reverseRecOn with
  | nil =>
    obtain ⟨config, rfl⟩ := new_eq_ok h
    have hreport : Resolver.new.report = {} := by
      rw [Resolver.report, Resolver.emitting_eq]
      decide
    change ({} : Assembler) = ⟨Resolver.new.report, Resolver.new.report⟩
    rw [hreport]
  | append_singleton inputs input ih =>
    rw [run_concat]
    cases hc : (engine.run inputs).cycleOf input with
    | none =>
      obtain ⟨config, rfl⟩ := eq_select_of_cycleOf hc
      exact ih
    | some pair =>
      rw [feed_of_cycleOf hc, assemble_eq]

theorem closed_run (h : Engine.new keymap settings = .ok engine) (inputs : List Input) :
    (engine.run inputs).Closed :=
  ⟨request_run h inputs, assembler_run h inputs⟩

/-- The end of a cycle finds nothing to do in a state between two cycles. -/
theorem Closed.close (H : engine.Closed) :
    engine.collectRequest.assemble = (engine, ⟨engine.lastReport, false⟩) := by
  have hresolver : { engine.resolver with request := none } = engine.resolver := by
    rw [← H.request]
  have hcollect : engine.collectRequest = engine := by
    change { engine with
      resolver := { engine.resolver with request := none }
      pending := engine.resolver.request <|> engine.pending } = engine
    rw [hresolver, H.request]
    rfl
  have hlast : engine.lastReport = engine.resolver.report := by rw [lastReport, H.assembler]
  rw [hcollect, assemble_eq, ← H.assembler, hlast]
  simp

/-! ## What is due -/

theorem applyPending_of_own (h : engine.pending = none ∨ engine.pending = some engine.config) :
    engine.applyPending.value = { engine with pending := none } :=
  make_switch_of_own h

theorem applyPending_of_other (h : engine.pending = some config) (hne : config ≠ engine.config) :
    engine.applyPending.value = { engine with
      pending := none
      config
      resolver := { Resolver.new with down := engine.resolver.down }
      tapHold := TapHold.Machine.new engine.tapHold.threshold engine.tapHold.policy } :=
  make_switch_of_pending h hne

/-- The polls of a cycle come to a deed for each key, and none of these bears on another. -/
theorem play_polls (engine : Engine) (now : Tick) : engine.play (Move.polls now) =
    (Key.all.map fun key => engine.deed (.poll key now)).foldl carryOut engine :=
  play_map Key.nodup_all (fun _ => rfl) fun _ => rfl

theorem deed_poll_of_waits (h : (engine.keyState key).Waits engine.tapHold.threshold now) :
    engine.deed (.poll key now) = .wait := by
  simp only [deed]
  split
  · next hphase => exact absurd hphase (h.tapped _)
  · next hphase => exact if_neg (UInt32.not_le.mpr (h.pending _ _ _ hphase))
  · rfl

/-- The polls make nothing of an engine in which all keys wait. -/
theorem play_polls_of_waits
    (h : ∀ key, (engine.keyState key).Waits engine.tapHold.threshold now) :
    engine.play (Move.polls now) = engine := by
  have hwait : (Key.all.map fun key => engine.deed (.poll key now)) = Key.all.map fun _ => .wait :=
    List.map_congr_left fun key _ => deed_poll_of_waits (h key)
  rw [play_polls, hwait, List.foldl_map]
  exact List.foldl_fixed Key.all

theorem idleStep_polls (engine : Engine) (now : Tick) (key : Key) :
    IdleStep engine.tapHold.threshold now (engine.keyState key)
      ((engine.play (Move.polls now)).keyState key) := by
  by_cases h : engine.Answers key (.poll key now)
  · obtain ⟨reached, hreached, hrules, -, hplay⟩ := @polls_of_answers _ _ _ 0 h
    have hthreshold : reached.tapHold.threshold = engine.tapHold.threshold :=
      (Prod.mk.inj hrules).1
    rw [← answers_congr hreached hrules] at h
    rw [hplay, make_value, ← hreached, ← hthreshold]
    rcases (answers_poll.mp h).2 with ⟨tap, hphase⟩ | ⟨since, tap, hold, hphase, hdue⟩
    · rw [deed_poll_of_tapped hphase, keyState_endTap]
      exact .tap hphase
    · rw [deed_poll_of_pending hphase hdue, keyState_hold]
      exact .hold hphase hdue (Resolver.comesOutAs_outcome _ _)
  · rw [(@polls_of_not_answers _ _ _ 0 h).1]
    refine .wait ⟨fun action hphase => ?_, fun since tap hold hphase => ?_⟩
    · exact h (answers_poll.mpr ⟨rfl, .inl ⟨action, hphase⟩⟩)
    · rw [← UInt32.not_le]
      exact fun hdue => h (answers_poll.mpr ⟨rfl, .inr ⟨since, tap, hold, hphase, hdue⟩⟩)

/-! ## One cycle -/

theorem cycle_none_eq (engine : Engine) (now : Tick) : (engine.cycle Edges.none now).value =
    (engine.applyPending.value.play (Move.polls now)).collectRequest.assemble := by
  rw [cycle_value, Move.ofCycle_none, play_cons]
  rfl

theorem idleStep_cycle (engine : Engine) (now : Tick) (key : Key) :
    IdleStep engine.applyPending.value.tapHold.threshold now
      (engine.applyPending.value.keyState key)
      ((engine.cycle Edges.none now).value.1.keyState key) := by
  rw [cycle_none_eq, keyState_close]
  exact idleStep_polls engine.applyPending.value now key

/-- A cycle without edges asks for the configs that its holds ask for. -/
theorem requests_none (engine : Engine) (now : Tick) :
    engine.requests (Move.ofCycle Edges.none now) =
      (Key.all.map fun key => engine.applyPending.value.deed (.poll key now)).filterMap
        Deed.request? := by
  rw [Move.ofCycle_none, requests_cons, request?_deed_switch, List.filterMap_map]
  exact requests_map Key.nodup_all (fun _ => rfl) fun _ => rfl

/-- The state after a cycle without edges: that of the deeds that are due, with the request they
leave and with their report. -/
theorem cycle_none_value (H : engine.Closed) (now : Tick) :
    let ready := engine.applyPending.value
    let due := Key.all.map fun key => ready.deed (.poll key now)
    let polled := due.foldl carryOut ready
    (engine.cycle Edges.none now).value = ({ polled with
        pending := (due.filterMap Deed.request?).getLast?
        resolver := { polled.resolver with request := none }
        assembler := ⟨polled.resolver.report, polled.resolver.report⟩ },
      ⟨polled.resolver.report, polled.resolver.report ≠ engine.lastReport⟩) := by
  intro ready due polled
  have hpolled : ready.play (Move.polls now) = polled := play_polls ready now
  have hpending : (engine.cycle Edges.none now).value.1.pending =
      (due.filterMap Deed.request?).getLast? := by
    rw [← requests_none]
    exact @pending_feed engine Edges.none now (.edges Edges.none now) rfl H.request
  have hlast : polled.lastReport = engine.lastReport := by
    rw [← hpolled, lastReport_play]
    exact lastReport_play engine [.switch]
  rw [cycle_none_eq, hpolled, assemble_eq] at hpending ⊢
  rw [← hpending, ← hlast]
  rfl

/-- What no deed changes, nor the end of a cycle, is the same after a cycle. -/
theorem cycle_of_carryOut {α : Type} {f : Engine → α}
    (h : ∀ engine deed, f (carryOut engine deed) = f engine)
    (hclose : ∀ engine, f engine.collectRequest.assemble.1 = f engine) (engine : Engine)
    (edges : Edges) (now : Tick) : f (engine.cycle edges now).value.1 = f engine := by
  rw [cycle_value, hclose, play_of_carryOut h]

theorem config_cycle_none (engine : Engine) (now : Tick) :
    (engine.cycle Edges.none now).value.1.config = engine.applyPending.value.config := by
  rw [cycle_none_eq, config_close]
  exact play_of_no_switch config_make (by simp [Move.polls]) _

/-- If all keys wait and no other config is due, only a request for the own config is dropped. -/
theorem cycle_none_of_waits (H : engine.Closed)
    (hp : engine.pending = none ∨ engine.pending = some engine.config)
    (h : ∀ key, (engine.keyState key).Waits engine.tapHold.threshold now) :
    (engine.cycle Edges.none now).value =
      ({ engine with pending := none }, ⟨engine.lastReport, false⟩) := by
  have hready : Closed { engine with pending := none } := ⟨H.request, H.assembler⟩
  have hpolls : play { engine with pending := none } (Move.polls now) =
      { engine with pending := none } := play_polls_of_waits h
  rw [cycle_none_eq, applyPending_of_own hp, hpolls, hready.close]
  rfl

/-- A cycle without edges changes nothing just if nothing is due. -/
theorem cycle_none_eq_self_iff (H : engine.Closed) : (engine.cycle Edges.none now).value =
      (engine, ⟨engine.lastReport, false⟩) ↔
    engine.pending = none ∧ ∀ key, (engine.keyState key).Waits engine.tapHold.threshold now := by
  constructor
  · intro h
    -- another config would show as the config, and what is due for a key in its state
    have hsame : (engine.cycle Edges.none now).value.1 = engine := congrArg Prod.fst h
    have hconfig : engine.config = engine.pending.getD engine.config := by
      have hfeed := @config_feed engine Edges.none now (.edges Edges.none now) rfl
      change (engine.cycle Edges.none now).value.1.config = _ at hfeed
      rwa [hsame] at hfeed
    have hown : engine.pending = none ∨ engine.pending = some engine.config := by
      cases hp : engine.pending with
      | none => exact .inl rfl
      | some config =>
        rw [hp] at hconfig
        exact .inr (congrArg some hconfig.symm)
    have hwaits : ∀ key, (engine.keyState key).Waits engine.tapHold.threshold now := by
      intro key
      have hstep := idleStep_cycle engine now key
      rw [hsame, applyPending_of_own hown] at hstep
      exact hstep.waits rfl
    rw [cycle_none_of_waits H hown hwaits] at h
    exact ⟨(congrArg Engine.pending (congrArg Prod.fst h)).symm, hwaits⟩
  · rintro ⟨hp, hwaits⟩
    rw [cycle_none_of_waits H (.inl hp) hwaits, ← hp]

/-! ## Many cycles -/

/-- A key that does not reach the threshold for some ticks waits, and from the next tick on it does
not reach it for one less. -/
theorem waits_of_deadline {s : KeyState} {threshold : Tick} (ht : ∀ action, s.phase ≠ .tapped action)
    (hdeadline : ∀ since tap hold, s.phase = .pending since tap hold →
      (elapsed start since).toNat + (n + 1) ≤ threshold.toNat) :
    s.Waits threshold start ∧ ∀ since tap hold, s.phase = .pending since tap hold →
      (elapsed (start + 1) since).toNat + n ≤ threshold.toNat := by
  refine ⟨⟨ht, fun since tap hold hphase => ?_⟩, fun since tap hold hphase => ?_⟩
  · have hle := hdeadline since tap hold hphase
    rw [UInt32.lt_iff_toNat_lt]
    omega
  · have hle := hdeadline since tap hold hphase
    have hlt := threshold.toNat_lt
    have hnext : elapsed (start + 1) since = elapsed start since + 1 := by
      simp only [elapsed]
      grind
    rw [hnext, UInt32.toNat_add, UInt32.toNat_one]
    omega

/-- Cycles in which nothing is due can be left out. -/
theorem run_idleInputs (H : engine.Closed) (hp : engine.pending = none)
    (ht : ∀ key action, (engine.keyState key).phase ≠ .tapped action)
    (hdeadline : ∀ key since tap hold, (engine.keyState key).phase = .pending since tap hold →
      (elapsed start since).toNat + n ≤ engine.tapHold.threshold.toNat) :
    engine.run (idleInputs start n) = engine ∧
      engine.cycles (idleInputs start n) =
        List.replicate n (some ⟨engine.lastReport, false⟩) := by
  induction n generalizing start with
  | zero => exact ⟨rfl, rfl⟩
  | succ n ih =>
    -- the first cycle changes nothing, so the others start from the same state one tick later
    have hwaits := fun key => waits_of_deadline (ht key) (hdeadline key)
    have hcycle := (cycle_none_eq_self_iff H).mpr ⟨hp, fun key => (hwaits key).1⟩
    have hfeed : (engine.feed (.edges Edges.none start)).value =
        (engine, some ⟨engine.lastReport, false⟩) := by
      change ((engine.cycle Edges.none start).value.1,
        some (engine.cycle Edges.none start).value.2) = _
      rw [hcycle]
    obtain ⟨hrun, hcycles⟩ := ih fun key => (hwaits key).2
    refine ⟨?_, ?_⟩
    · change (engine.feed (.edges Edges.none start)).value.1.run (idleInputs (start + 1) n) = engine
      rw [hfeed, hrun]
    · rw [idleInputs, cycles, hfeed, hcycles, List.replicate_succ]

/-- Cycles without edges change only what is due. Such a cycle first drops a request for the own
config or switches to the other config that is asked for. Then a deed is done for each key, in key
order, and there is a deed only for a key that is tapped, which becomes idle with its latch undone,
and for one that has been pending for the threshold, which becomes held with its hold applied. All
else stays as it is, but for the requests of these holds, which are passed on, and for the report,
which is what is latched. The cycle ends in the state it started from, with the same report, just if
no config is asked for and nothing is due for any key. So if no config is asked for and no key is
tapped, any number of such cycles at consecutive ticks before the first deadline of a pending key
can be left out of a run. -/
theorem idle_cycles_change_only_what_is_due (keymap : Keymap) (settings : Settings)
    (engine : Engine) (inputs : List Input) (h : Engine.new keymap settings = .ok engine) :
    let before := engine.run inputs
    (∀ now : Tick,
      let ready := before.applyPending.value
      let due := Key.all.map fun key => ready.deed (.poll key now)
      let polled := due.foldl carryOut ready
      let after := (before.cycle Edges.none now).value.1
      let cycle := (before.cycle Edges.none now).value.2
      ((before.pending = none ∨ before.pending = some before.config →
          ready = { before with pending := none }) ∧
        ∀ config, before.pending = some config → config ≠ before.config →
          ready = { before with
            pending := none
            config
            resolver := { Resolver.new with down := before.resolver.down }
            tapHold := TapHold.Machine.new before.tapHold.threshold before.tapHold.policy }) ∧
      (after = { polled with
          pending := (due.filterMap Deed.request?).getLast?
          resolver := { polled.resolver with request := none }
          assembler := ⟨cycle.report, cycle.report⟩ } ∧
        (∀ key, IdleStep before.tapHold.threshold now (ready.keyState key) (after.keyState key)) ∧
        after.keymap = before.keymap ∧ after.config = ready.config ∧
        after.debouncer = before.debouncer ∧ after.rules = before.rules) ∧
      (cycle.report.codes = (Key.all.flatMap after.resolver.codesOf).eraseDups ∧
        (cycle.changed = true ↔ cycle.report ≠ before.lastReport)) ∧
      ((before.cycle Edges.none now).value = (before, ⟨before.lastReport, false⟩) ↔
        before.pending = none ∧
          ∀ key, (before.keyState key).Waits before.tapHold.threshold now)) ∧
    ∀ (start : Tick) (n : Nat), before.pending = none →
      (∀ key action, (before.keyState key).phase ≠ .tapped action) →
      (∀ key since tap hold, (before.keyState key).phase = .pending since tap hold →
        (elapsed start since).toNat + n ≤ before.tapHold.threshold.toNat) →
      ∀ later : List Input,
        before.run (idleInputs start n ++ later) = before.run later ∧
        before.cycles (idleInputs start n ++ later) =
          List.replicate n (some ⟨before.lastReport, false⟩) ++ before.cycles later := by
  intro before
  have hclosed : before.Closed := closed_run h inputs
  refine ⟨fun now => ?_, fun start n hp ht hdeadline later => ?_⟩
  · intro ready due polled after cycle
    have hvalue := cycle_none_value hclosed now
    have hafter : after = _ := congrArg Prod.fst hvalue
    have hcycle : cycle = _ := congrArg Prod.snd hvalue
    have hreport : cycle.report = polled.resolver.report := congrArg Cycle.report hcycle
    refine ⟨⟨applyPending_of_own, fun config => applyPending_of_other⟩, ⟨?_, fun key => ?_,
      cycle_of_carryOut keymap_carryOut (fun _ => rfl) before Edges.none now,
      config_cycle_none before now,
      cycle_of_carryOut debouncer_carryOut (fun _ => rfl) before Edges.none now,
      cycle_of_carryOut rules_carryOut (fun _ => rfl) before Edges.none now⟩, ⟨?_, ?_⟩,
      cycle_none_eq_self_iff hclosed⟩
    · rw [hreport]
      exact hafter
    · have hthreshold : ready.tapHold.threshold = before.tapHold.threshold :=
        (Prod.mk.inj (rules_play before [.switch])).1
      exact hthreshold ▸ idleStep_cycle before now key
    · exact @codes_feed before (.edges Edges.none now) cycle rfl
    · have hchanged : cycle.changed = decide (polled.resolver.report ≠ before.lastReport) :=
        congrArg Cycle.changed hcycle
      rw [hchanged, hreport, decide_eq_true_eq]
  · obtain ⟨hrun, hcycles⟩ := run_idleInputs hclosed hp ht hdeadline
    rw [run_append, cycles_append, hrun, hcycles]
    exact ⟨rfl, rfl⟩

/-- Key 3 is pending while key 2 is down. The four cycles before the deadline can be left out, and
the one at the deadline applies the hold. -/
theorem idle_cycles_change_only_what_is_due_deadline :
    let keymap := (Keymap.empty.set 0 Layer.base 2 (.emit .b)).set 0 Layer.base 3
      (.tapHold (.emit .a) (.layerHold 1))
    let inputs : List Input :=
      [.edges ((Edges.none.set 2 (some .pressed)).set 3 (some .pressed)) 0]
    let later : List Input := [.edges Edges.none 5]
    ∃ engine before, Engine.new keymap { tapHoldTicks := 5 } = .ok engine ∧
      before = engine.run inputs ∧
      (before.cycle Edges.none 4).value = (before, ⟨⟨[.b]⟩, false⟩) ∧
      before.run (idleInputs 1 4 ++ later) = before.run later ∧
      before.cycles (idleInputs 1 4 ++ later) =
        List.replicate 4 (some ⟨⟨[.b]⟩, false⟩) ++ before.cycles later ∧
      (before.run later).layers = [1, 0] ∧
      (before.run later).keyState 3 = ⟨true, some (.layerHold 1), .held (.layerHold 1)⟩ := by
  intro keymap inputs later
  obtain ⟨engine, hnew⟩ : ∃ engine, Engine.new keymap { tapHoldTicks := 5 } = .ok engine :=
    ⟨_, rfl⟩
  obtain ⟨hpending, hlast, hthreshold, hphase⟩ : (engine.run inputs).pending = none ∧
      (engine.run inputs).lastReport = ⟨[.b]⟩ ∧ (engine.run inputs).tapHold.threshold = 5 ∧
      ∀ key, ((engine.run inputs).keyState key).phase =
        if key = 3 then .pending 0 (.emit .a) (.layerHold 1) else .idle := by
    cases hnew
    decide +kernel
  obtain ⟨hlayers, hheld⟩ : ((engine.run inputs).run later).layers = [1, 0] ∧
      ((engine.run inputs).run later).keyState 3 =
        ⟨true, some (.layerHold 1), .held (.layerHold 1)⟩ := by
    cases hnew
    decide +kernel
  have hpends : ∀ key since tap hold,
      ((engine.run inputs).keyState key).phase = .pending since tap hold → since = 0 := by
    intro key since tap hold h
    rw [hphase] at h
    split at h
    · exact (TapHold.Phase.pending.inj h).1.symm
    · cases h
  have htapped : ∀ key action, ((engine.run inputs).keyState key).phase ≠ .tapped action := by
    intro key action
    rw [hphase]
    split <;> exact nofun
  have hwaits : ∀ key, ((engine.run inputs).keyState key).Waits
      (engine.run inputs).tapHold.threshold 4 := by
    refine fun key => ⟨htapped key, fun since tap hold h => ?_⟩
    rw [hpends key since tap hold h, hthreshold]
    decide
  have hdeadline : ∀ key since tap hold,
      ((engine.run inputs).keyState key).phase = .pending since tap hold →
        (elapsed 1 since).toNat + 4 ≤ (engine.run inputs).tapHold.threshold.toNat := by
    intro key since tap hold h
    rw [hpends key since tap hold h, hthreshold]
    decide
  obtain ⟨hcycle, hskip⟩ := idle_cycles_change_only_what_is_due keymap { tapHoldTicks := 5 } engine
    inputs hnew
  have hquiet := (hcycle 4).2.2.2.mpr ⟨hpending, hwaits⟩
  obtain ⟨hrun, hcycles⟩ := hskip 1 4 hpending htapped hdeadline later
  rw [hlast] at hquiet hcycles
  exact ⟨engine, _, hnew, rfl, hquiet, hrun, hcycles, hlayers, hheld⟩

end Engine

end Keystroke
