import Keystroke.Proofs.Engine.Delivery

/-!
# What a combined key reads

In an engine that is fed raw levels the resolver's account of the keys that are down is the
debounced one. In the middle of a cycle it is that of the cycle before, with all releases and the
presses of lower keys handled (`down_mark_iff`), and that is what a combined key reads.
-/

namespace Keystroke

namespace Engine

variable {engine : Engine} {keymap : Keymap} {settings : Settings} {key other : Key}
  {edges : Edges} {now at' : Tick} {moves more : List Move}

theorem down_play_of_unhandled (h : Move.ofCycle edges now = moves ++ more)
    (hm : ∀ edge, edges[key] = some edge → Move.ofEdge key now edge ∉ moves) :
    ((engine.play moves).keyState key).down = (engine.keyState key).down :=
  down_play (Move.edgeFree_of_notMem (h ▸ List.subset_append_left _ _) hm)

/-- At the press of a key another one is down if it was so before the cycle and is not released in
it, or if it is pressed in it and comes no later in the order of the keys. -/
theorem down_mark_iff (ha : engine.Awaits edges)
    (h : Move.ofCycle edges now = moves ++ .press key now :: more) :
    ((engine.play moves).resolver.mark key true).down[other] = true ↔
      ((engine.keyState other).down = true ∧ edges[other] ≠ some .released) ∨
        (edges[other] = some .pressed ∧ other ≤ key) := by
  by_cases he : key = other
  · subst he
    have hedge : edges[key] = some .pressed :=
      (Move.mem_ofCycle_press.mp (h ▸ List.mem_append_right _ List.mem_cons_self)).2
    exact iff_of_true (Slots.getElem_set_self ..) (.inr ⟨hedge, Nat.le_refl _⟩)
  · have hmark : ((engine.play moves).resolver.mark key true).down[other] =
        ((engine.play moves).keyState other).down := Slots.getElem_set_ne _ he true
    rw [hmark]
    cases hedge : edges[other] with
    | none =>
      rw [down_play_of_unhandled h fun edge hother => by rw [hedge] at hother; cases hother]
      simp
    | some edge =>
      cases edge with
      | released =>
        have hm : Move.ofEdge other now .released ∈ moves :=
          Move.mem_of_stage_lt h (Move.mem_ofCycle_ofEdge.mpr hedge)
            (Nat.lt_of_lt_of_le (by decide : 2 < 3) (Nat.le_add_right 3 key.val))
        rw [down_play_of_edge h hm]
        simp [Edge.level]
      | pressed =>
        have hup : (engine.keyState other).down = false := ha other .pressed hedge
        rcases Nat.lt_or_gt_of_ne (fun hval => he (Fin.ext hval)) with hlt | hlt
        · -- its press comes later in the cycle
          have hm : Move.ofEdge other now .pressed ∉ moves :=
            Move.notMem_of_stage_lt h (Nat.add_lt_add_left hlt 3)
          rw [down_play_of_unhandled h fun edge hother => by
            obtain rfl := Option.some.inj (hedge.symm.trans hother)
            exact hm, hup]
          simpa using hlt
        · have hm : Move.ofEdge other now .pressed ∈ moves :=
            Move.mem_of_stage_lt h (Move.mem_ofCycle_ofEdge.mpr hedge) (Nat.add_lt_add_left hlt 3)
          rw [down_play_of_edge h hm]
          exact iff_of_true rfl (.inr ⟨rfl, Nat.le_of_lt hlt⟩)

/-- A combined key that is pressed latches the emission that the state of its other key selects. -/
theorem latched_make_press_combined {normal joint : KeyCode}
    (h : engine.lookup key = .basic (.combined other normal joint)) :
    (engine.make (.press key now)).value.resolver.latched[key] = some (.emit
      (if (engine.resolver.mark key true).down[other] = true then joint else normal)) := by
  have hdeed : engine.deed (.press key now) = .press key (.combined other normal joint) := by
    simp only [deed, h]
  rw [make_value, hdeed]
  exact congrArg KeyState.latch (keyState_press ..)

/-- The resolver and the debouncer agree on the keys that are down, and combined keys read them
correctly. In a run on raw levels a key is down for the resolver after every cycle if it is
debounced as pressed. A combined key that is pressed latches its joint code, to the end of the
cycle, if its other key was pressed before the cycle and is not released in it or is pressed in the
cycle and comes no later in the order of the keys; otherwise it latches its normal code. -/
theorem combined_reads_debounced_levels (keymap : Keymap) (settings : Settings) (engine : Engine)
    (inputs : List Input) (h : Engine.new keymap settings = .ok engine)
    (hraw : ∀ input ∈ inputs, input.givesEdges = false) :
    let before := engine.run inputs
    (∀ key : Key, before.resolver.down[key] = before.debouncer.isPressed key) ∧
    ∀ (levels : Levels) (now : Tick) (moves more : List Move) (key other : Key)
      (normal joint : KeyCode),
      let edges := (before.debouncer.sampleAll levels now).value.2
      let reached := (before.started (.levels levels now)).play moves
      let after := (before.feed (.levels levels now)).value.1
      let joined := (before.debouncer.isPressed other = true ∧ edges[other] ≠ some .released) ∨
        (edges[other] = some .pressed ∧ other ≤ key)
      Move.ofCycle edges now = moves ++ .press key now :: more →
      reached.lookup key = .basic (.combined other normal joint) →
      ∃ code, (reached.make (.press key now)).value.resolver.latched[key] = some (.emit code) ∧
        after.resolver.latched[key] = some (.emit code) ∧
        (joined → code = joint) ∧ (¬joined → code = normal) := by
  intro before
  have T : before.Tracked := tracked_run h hraw
  refine ⟨T.level, ?_⟩
  intro levels now moves more key other normal joint edges reached after joined hsplit hlookup
  have hawaits : (before.started (.levels levels now)).Awaits edges := T.awaits levels now
  have hlatched := @latched_make_press_combined reached key other now normal joint hlookup
  have hdown : (reached.resolver.mark key true).down[other] = true ↔ joined := by
    rw [down_mark_iff hawaits hsplit, keyState_started, T.level other]
  have happlied : (reached.deed (.press key now)).applied? =
      some (key, .combined other normal joint) := by
    simp only [deed, hlookup, Deed.applied?]
  have hkept := keyState_cycle_of_applied (T.coherent_started _) hawaits hsplit happlied
    fun hpoll => Move.noConfusion hpoll.1
  refine ⟨_, hlatched, ?_, fun hj => if_pos (hdown.mpr hj), fun hj => if_neg fun hd =>
    hj (hdown.mp hd)⟩
  have hafter : after.keyState key =
      ((before.started (.levels levels now)).play (Move.ofCycle edges now)).keyState key :=
    keyState_feed rfl
  exact (congrArg KeyState.latch (hafter.trans hkept)).trans hlatched

/-- The other key of a combined key is pressed in the same cycle, and it is released in the cycle of
the next press. -/
theorem combined_reads_debounced_levels_same_cycle :
    let keymap := Keymap.empty.set 0 Layer.base 5 (.basic (.combined 3 .a .b))
    let first : Levels := (Slots.fill false).set 3 true
    let second : Levels := (Slots.fill false).set 5 true
    ∃ engine, Engine.new keymap { debounceSamples := 1 } = .ok engine ∧
      (engine.feed (.levels (first.set 5 true) 0)).value.1.resolver.latched[(5 : Key)] =
        some (.emit .b) ∧
      (engine.run [.levels first 0]).resolver.down[(3 : Key)] = true ∧
      (engine.run [.levels first 0]).debouncer.isPressed 3 = true ∧
      ((engine.run [.levels first 0]).feed (.levels second 1)).value.1.resolver.latched[(5 : Key)] =
        some (.emit .a) := by
  intro keymap first second
  obtain ⟨engine, hnew⟩ : ∃ engine, Engine.new keymap { debounceSamples := 1 } = .ok engine :=
    ⟨_, rfl⟩
  obtain ⟨-, hjoint⟩ :=
    combined_reads_debounced_levels keymap { debounceSamples := 1 } engine [] hnew nofun
  obtain ⟨hdown, hnormal⟩ := combined_reads_debounced_levels keymap { debounceSamples := 1 } engine
    [.levels first 0] hnew (by simp [Input.givesEdges])
  have hpressed : (engine.run [.levels first 0]).debouncer.isPressed 3 = true := by
    cases hnew
    decide +kernel
  refine ⟨engine, hnew, ?_, (hdown 3).trans hpressed, hpressed, ?_⟩
  · obtain ⟨code, -, hlatched, hj, -⟩ := hjoint (first.set 5 true) 0
      (.switch :: Move.polls 0 ++ Move.presses 0 3 ++ Key.all.map (.interrupt · 5)) [] 5 3 .a .b
      (by cases hnew; decide +kernel) (by cases hnew; decide +kernel)
    obtain rfl := hj (.inr ⟨by cases hnew; decide +kernel, by decide⟩)
    exact hlatched
  · obtain ⟨code, -, hlatched, -, hn⟩ := hnormal second 1
      (.switch :: Move.polls 1 ++ [.release 3] ++ Key.all.map (.interrupt · 5)) [] 5 3 .a .b
      (by cases hnew; decide +kernel) (by cases hnew; decide +kernel)
    obtain rfl := hn (by cases hnew; decide +kernel)
    exact hlatched

end Engine

end Keystroke
