import Keystroke.Proofs.Debounce
import Keystroke.Proofs.Engine.Quiescence
import Keystroke.Proofs.Engine.Warnings

/-!
# The tap-hold machine and the resolver agree

The tap-hold phase of a key, its level and its latch are stored apart and stay `Coherent` in every
engine that is fed raw levels. The debouncer makes this work: it reports a press only of a key that
is up and a release only of one that is down, so the edges that a cycle handles are `InTurn`. Then
a decision is started for idle keys alone and an action applied to keys without a latch alone.
-/

namespace Keystroke

namespace KeyState

/-- What the tap-hold phase of a key says about its level and its latch. -/
structure Coherent (s : KeyState) : Prop where
  idle : s.phase = .idle → s.down = false → s.latch = none
  pending : ∀ since tap hold, s.phase = .pending since tap hold → s.down = true ∧ s.latch = none
  tapped : ∀ tap, s.phase = .tapped tap →
    s.down = false ∧ ∃ action, s.latch = some action ∧ tap.ComesOutAs action
  held : ∀ hold, s.phase = .held hold →
    s.down = true ∧ ∃ action, s.latch = some action ∧ hold.ComesOutAs action

/-- If the move handles an edge of the key, it comes when the key waits for that edge. -/
structure InTurn (s : KeyState) (key : Key) (move : Move) : Prop where
  press : ∀ now, move = .press key now → s.down = false ∧ s.phase = .idle
  release : move = .release key → s.down = true

variable {s s' : KeyState} {key : Key} {deed : Deed} {move : Move}

theorem coherent_of_phase_idle (h : s.phase = .idle) (hl : s.down = false → s.latch = none) :
    s.Coherent :=
  ⟨fun _ => hl, by simp [h], by simp [h], by simp [h]⟩

theorem coherent_of_phase_pending {since : Tick} {tap hold : BasicAction}
    (h : s.phase = .pending since tap hold) (hdown : s.down = true) (hl : s.latch = none) :
    s.Coherent :=
  ⟨by simp [h], fun _ _ _ _ => ⟨hdown, hl⟩, by simp [h], by simp [h]⟩

theorem coherent_of_phase_tapped {tap latched : BasicAction} (h : s.phase = .tapped tap)
    (hup : s.down = false) (hl : s.latch = some latched) (hout : tap.ComesOutAs latched) :
    s.Coherent := by
  refine ⟨by simp [h], by simp [h], fun other he => ?_, by simp [h]⟩
  obtain rfl := TapHold.Phase.tapped.inj (h.symm.trans he)
  exact ⟨hup, latched, hl, hout⟩

theorem coherent_of_phase_held {hold latched : BasicAction} (h : s.phase = .held hold)
    (hdown : s.down = true) (hl : s.latch = some latched) (hout : hold.ComesOutAs latched) :
    s.Coherent := by
  refine ⟨by simp [h], by simp [h], by simp [h], fun other he => ?_⟩
  obtain rfl := TapHold.Phase.held.inj (h.symm.trans he)
  exact ⟨hdown, latched, hl, hout⟩

/-- A key that is up is idle or tapped. -/
theorem Coherent.idle_of_up (H : s.Coherent) (hup : s.down = false)
    (ht : ∀ tap, s.phase ≠ .tapped tap) : s.phase = .idle := by
  cases h : s.phase with
  | idle => rfl
  | tapped tap => exact absurd h (ht tap)
  | pending since tap hold => exact absurd (H.pending since tap hold h).1 (by simp [hup])
  | held hold => exact absurd (H.held hold h).1 (by simp [hup])

/-- A step whose edges come in turn keeps a key coherent. -/
theorem Coherent.step (H : s.Coherent) (h : KeyStep key deed s s') (hd : deed.CausedBy move)
    (ht : s.InTurn key move) : s'.Coherent := by
  cases h with
  | keep => exact H
  | switch | endTap | endHold => exact coherent_of_phase_idle rfl fun _ => rfl
  | start =>
    obtain ⟨hup, hidle⟩ := ht.press _ hd
    exact coherent_of_phase_pending rfl rfl (H.idle hidle hup)
  | press =>
    obtain ⟨now, hd⟩ := hd
    exact coherent_of_phase_idle (ht.press now hd).2 nofun
  | tap hphase hout => exact coherent_of_phase_tapped rfl rfl rfl hout
  | hold hphase hout =>
    exact coherent_of_phase_held rfl (H.pending _ _ _ hphase).1 rfl hout
  | release hphase =>
    -- a tapped key is up, so its release does not come in turn
    rcases hphase with hidle | ⟨tap, htap⟩
    · exact coherent_of_phase_idle hidle fun _ => rfl
    · have hup := (H.tapped tap htap).1
      rw [ht.release hd] at hup
      cases hup

end KeyState

/-- The input hands edges to the engine that no debouncer has seen. -/
def Engine.Input.givesEdges : Engine.Input → Bool
  | edges .. => true
  | levels .. | select _ => false

namespace Engine

variable {engine : Engine} {keymap : Keymap} {settings : Settings} {move : Move} {key : Key}
  {edges : Edges} {now : Tick} {moves more : List Move}

/-- Every edge comes to a key that waits for it. -/
def Awaits (engine : Engine) (edges : Edges) : Prop :=
  ∀ (key : Key) (edge : Edge), edges[key] = some edge → (engine.keyState key).down = !edge.level

/-! ## One cycle -/

/-- The moves of a cycle come in turn. -/
theorem inTurn_play (ha : engine.Awaits edges) (h : Move.ofCycle edges now = moves ++ move :: more)
    (H : ((engine.play moves).keyState key).Coherent) :
    ((engine.play moves).keyState key).InTurn key move where
  press at' he := by
    subst he
    have hm : .press key at' ∈ Move.ofCycle edges now := by
      rw [h]
      exact List.mem_append_right _ List.mem_cons_self
    obtain ⟨rfl, hedge⟩ := Move.mem_ofCycle_press.mp hm
    have hsplit : Move.ofCycle edges at' = moves ++ .ofEdge key at' .pressed :: more := h
    obtain ⟨hpoll, hfree, -⟩ := Move.split_at_edge hsplit
    have hup : ((engine.play moves).keyState key).down = false := by
      rw [down_play hfree]
      exact ha key .pressed hedge
    exact ⟨hup, H.idle_of_up hup fun tap ht => hfree.release (mem_release_of_tapped hpoll ht)⟩
  release he := by
    subst he
    have hm : .release key ∈ Move.ofCycle edges now := by
      rw [h]
      exact List.mem_append_right _ List.mem_cons_self
    have hedge := Move.mem_ofCycle_release.mp hm
    have hsplit : Move.ofCycle edges now = moves ++ .ofEdge key now .released :: more := h
    obtain ⟨-, hfree, -⟩ := Move.split_at_edge hsplit
    rw [down_play hfree]
    exact ha key .released hedge

theorem coherent_play (H : ∀ key, (engine.keyState key).Coherent) (ha : engine.Awaits edges)
    (h : Move.ofCycle edges now = moves ++ more) (key : Key) :
    ((engine.play moves).keyState key).Coherent := by
  induction moves using List.reverseRecOn generalizing more with
  | nil => exact H key
  | append_singleton moves move ih =>
    rw [List.append_assoc] at h
    have hbefore := ih h
    rw [play_append]
    exact hbefore.step (keyStep_make _ move key) (causedBy_deed _ move) (inTurn_play ha h hbefore)

/-- A decision is started for an idle key, and an action applied to a key without a latch. -/
theorem start_and_apply_of_inTurn (H : ∀ key, (engine.keyState key).Coherent)
    (ht : ∀ key, (engine.keyState key).InTurn key move) :
    (∀ key tap hold at', engine.deed move = .start key tap hold at' →
      (engine.keyState key).phase = .idle) ∧ engine.AppliesToFree move := by
  have hdue := due_deed engine move
  have hcause := causedBy_deed engine move
  refine ⟨fun key tap hold at' hd => ?_, fun key action hd => ?_⟩
  · rw [hd] at hcause
    exact ((ht key).press at' hcause).2
  · generalize engine.deed move = deed at hdue hcause hd
    cases deed with
    | press other applied =>
      cases hd
      obtain ⟨at', hcause⟩ := hcause
      obtain ⟨hup, hidle⟩ := (ht key).press at' hcause
      exact (H key).idle hidle hup
    | tap other applied =>
      cases hd
      obtain ⟨since, hold, hphase⟩ := hdue
      exact ((H key).pending _ _ _ hphase).2
    | hold other applied =>
      cases hd
      obtain ⟨since, tap, hphase⟩ := hdue
      exact ((H key).pending _ _ _ hphase).2
    | _ => cases hd

theorem down_make_press (engine : Engine) (key : Key) (now : Tick) :
    ((engine.make (.press key now)).value.keyState key).down = true := by
  rw [make_value]
  simp only [deed]
  split
  · rw [keyState_press]
  · rw [keyState_start]

theorem down_make_release (engine : Engine) (key : Key) :
    ((engine.make (.release key)).value.keyState key).down = false := by
  rw [make_value]
  simp only [deed]
  split
  · rw [keyState_tap]
  · rw [keyState_endHold]
  · rw [keyState_release]

/-- Once its edge has been handled a key has the level that the edge leads to. -/
theorem down_play_of_edge {edge : Edge} (h : Move.ofCycle edges now = moves ++ more)
    (hm : Move.ofEdge key now edge ∈ moves) :
    ((engine.play moves).keyState key).down = edge.level := by
  obtain ⟨earlier, later, rfl⟩ := List.append_of_mem hm
  rw [List.append_assoc, List.cons_append] at h
  obtain ⟨-, -, hfree⟩ := Move.split_at_edge h
  have hlater : Move.EdgeFree key later :=
    ⟨fun at' hm => hfree.press at' (List.mem_append_left _ hm),
      fun hm => hfree.release (List.mem_append_left _ hm)⟩
  rw [play_append, play_cons, down_play hlater]
  cases edge with
  | pressed => exact down_make_press ..
  | released => exact down_make_release ..

theorem down_cycle_of_edge {edge : Edge} (h : edges[key] = some edge) :
    ((engine.play (Move.ofCycle edges now)).keyState key).down = edge.level :=
  down_play_of_edge (List.append_nil _).symm (Move.mem_ofCycle_ofEdge.mpr h)

/-! ## Runs on raw levels -/

/-- All keys are coherent, and what the edges tell of their levels is what the debouncer accepts. -/
structure Tracked (engine : Engine) : Prop where
  coherent : ∀ key, (engine.keyState key).Coherent
  level : ∀ key, (engine.keyState key).down = engine.debouncer.isPressed key

theorem Tracked.coherent_started (H : engine.Tracked) (input : Input) (key : Key) :
    ((engine.started input).keyState key).Coherent := by
  rw [keyState_started]
  exact H.coherent key

theorem Tracked.awaits (H : engine.Tracked) (levels : Levels) (now : Tick) :
    (engine.started (.levels levels now)).Awaits
      (engine.debouncer.sampleAll levels now).value.2 := by
  intro key edge hedge
  rw [keyState_started, H.level key]
  exact (Debouncer.isPressed_of_edge hedge).1

theorem debouncer_play (engine : Engine) (moves : List Move) :
    (engine.play moves).debouncer = engine.debouncer :=
  play_of_carryOut debouncer_carryOut engine moves

theorem debouncer_close (engine : Engine) :
    engine.collectRequest.assemble.1.debouncer = engine.debouncer := rfl

theorem Tracked.scan (H : engine.Tracked) (levels : Levels) (now : Tick) :
    (engine.feed (.levels levels now)).value.1.Tracked := by
  have hc : engine.cycleOf (.levels levels now) =
      some ((engine.debouncer.sampleAll levels now).value.2, now) := rfl
  rw [feed_of_cycleOf hc]
  refine ⟨fun key => ?_, fun key => ?_⟩
  · rw [keyState_close]
    exact coherent_play (H.coherent_started _) (H.awaits levels now) (List.append_nil _).symm key
  · have hdebouncer := debouncer_play (engine.started (.levels levels now))
      (Move.ofCycle (engine.debouncer.sampleAll levels now).value.2 now)
    rw [keyState_close, debouncer_close, hdebouncer]
    cases hedge : (engine.debouncer.sampleAll levels now).value.2[key] with
    | none =>
      rw [down_play (Move.edgeFree_ofCycle hedge), keyState_started, H.level key]
      exact (Debouncer.isPressed_of_no_edge hedge).symm
    | some edge =>
      rw [down_cycle_of_edge hedge]
      exact (Debouncer.isPressed_of_edge hedge).2.symm

theorem Tracked.feed (H : engine.Tracked) {input : Input} (hraw : input.givesEdges = false) :
    (engine.feed input).value.1.Tracked := by
  cases input with
  | edges => cases hraw
  | levels levels now => exact H.scan levels now
  | select config => exact ⟨H.coherent, H.level⟩

theorem tracked_run (h : Engine.new keymap settings = .ok engine) {inputs : List Input}
    (hraw : ∀ input ∈ inputs, input.givesEdges = false) : (engine.run inputs).Tracked := by
  induction inputs using List.reverseRecOn with
  | nil =>
    obtain ⟨config, rfl⟩ := new_eq_ok h
    refine ⟨fun key => KeyState.coherent_of_phase_idle ?_ fun _ => ?_, fun key => ?_⟩
    · exact Slots.getElem_fill ..
    · exact Slots.getElem_fill ..
    · simp [run, keyState, Resolver.new, Debouncer.new, Debouncer.isPressed]
  | append_singleton inputs input ih =>
    have H := ih fun earlier hm => hraw earlier (List.mem_append_left _ hm)
    rw [run_concat]
    exact H.feed (hraw input (List.mem_append_right _ List.mem_cons_self))

/-- The tap-hold machine and the resolver never drift apart in an engine that is fed raw levels.
In every state all keys are coherent. In every move of the next cycle a decision is started only
for an idle key and an action applied only for a key without a latch, so that the log never tells
of a press on a latched key. -/
theorem machine_and_resolver_agree (keymap : Keymap) (settings : Settings) (engine : Engine)
    (inputs : List Input) (h : Engine.new keymap settings = .ok engine)
    (hraw : ∀ input ∈ inputs, input.givesEdges = false) :
    (∀ key, ((engine.run inputs).keyState key).Coherent) ∧
    ∀ (levels : Levels) (now : Tick),
      (∀ moves move more,
        Move.ofCycle ((engine.run inputs).debouncer.sampleAll levels now).value.2 now =
            moves ++ move :: more →
          let before := ((engine.run inputs).started (.levels levels now)).play moves
          (∀ key, (before.keyState key).Coherent) ∧
          (∀ key tap hold at', before.deed move = .start key tap hold at' →
            before.tapHold.phases[key] = .idle) ∧
          ∀ key action, (before.deed move).applied? = some (key, action) →
            before.resolver.latched[key] = none) ∧
      ∀ key action,
        .pressedWhileLatched key action ∉ ((engine.run inputs).scan levels now).events := by
  have H := tracked_run h hraw
  refine ⟨H.coherent, fun levels now => ?_⟩
  have hmoves : ∀ moves move more,
      Move.ofCycle ((engine.run inputs).debouncer.sampleAll levels now).value.2 now =
        moves ++ move :: more →
      let before := ((engine.run inputs).started (.levels levels now)).play moves
      (∀ key, (before.keyState key).Coherent) ∧
      (∀ key tap hold at', before.deed move = .start key tap hold at' →
        before.tapHold.phases[key] = .idle) ∧ before.AppliesToFree move := by
    intro moves move more hsplit before
    have hcoherent : ∀ key, (before.keyState key).Coherent :=
      coherent_play (H.coherent_started _) (H.awaits levels now) hsplit
    exact ⟨hcoherent, start_and_apply_of_inTurn hcoherent fun key =>
      inTurn_play (H.awaits levels now) hsplit (hcoherent key)⟩
  refine ⟨hmoves, fun key action hm => ?_⟩
  rcases List.mem_append.mp hm with hm | hm
  · cases Debouncer.calm_sampleAll _ levels now _ hm
  · have hcalm := calm_cycle fun moves move more hsplit => (hmoves moves move more hsplit).2.2
    cases hcalm _ hm

/-- A tap-hold key is pressed, a config is asked for and dropped again, and the key is let go. -/
theorem machine_and_resolver_agree_tap :
    let keymap := Keymap.empty.set 0 Layer.base 3 (.tapHold (.layerToggle 1) (.layerHold 2))
    let inputs : List Input := [.levels ((Slots.fill false).set 3 true) 0, .select 1, .select 0]
    let moves := .switch :: Move.polls 1
    ∃ engine, Engine.new keymap { debounceSamples := 1 } = .ok engine ∧
      (∀ input ∈ inputs, input.givesEdges = false) ∧
      Move.ofCycle ((engine.run inputs).debouncer.sampleAll (Slots.fill false) 1).value.2 1 =
        moves ++ [.release 3] ∧
      (let before := ((engine.run inputs).started (.levels (Slots.fill false) 1)).play moves;
        (before.keyState 3).Coherent ∧
        (before.deed (.release 3)).applied? = some (3, .layerToggle 1) ∧
        before.resolver.latched[(3 : Key)] = none) ∧
      ∀ key action, .pressedWhileLatched key action ∉
        ((engine.run inputs).scan (Slots.fill false) 1).events := by
  intro keymap inputs moves
  obtain ⟨engine, hnew⟩ : ∃ engine, Engine.new keymap { debounceSamples := 1 } = .ok engine :=
    ⟨_, rfl⟩
  have hraw : ∀ input ∈ inputs, input.givesEdges = false := by decide +kernel
  have hsplit : Move.ofCycle
      ((engine.run inputs).debouncer.sampleAll (Slots.fill false) 1).value.2 1 =
        moves ++ [.release 3] := by
    cases hnew
    decide +kernel
  have hdeed : ((((engine.run inputs).started (.levels (Slots.fill false) 1)).play moves).deed
      (.release 3)).applied? = some (3, .layerToggle 1) := by
    cases hnew
    decide +kernel
  obtain ⟨-, hnext⟩ := machine_and_resolver_agree keymap _ engine inputs hnew hraw
  obtain ⟨hmoves, hevents⟩ := hnext (Slots.fill false) 1
  obtain ⟨hcoherent, -, hfree⟩ := hmoves moves (.release 3) [] hsplit
  exact ⟨engine, hnew, hraw, hsplit, ⟨hcoherent 3, hdeed, hfree 3 _ hdeed⟩, hevents⟩

end Engine

end Keystroke
