import Keystroke.Proofs.Engine.Course
import Keystroke.Proofs.Engine.Doings
import Keystroke.Proofs.Engine.Layers
import Keystroke.Proofs.Engine.Order

/-!
# Interrupted holds come first

If the press of a key decides all other pending keys, then only the key that was pressed last can
pend (`PendsLast`), because every press is preceded by the interruption of all other keys. So the
press of another key finds one pending key at most. The hold of that key is applied before the
pressed key is looked up (`play_interrupts_of_pending`), and a layer that it activates is on top of
the stack by then.
-/

namespace Keystroke

/-- The key that some moves press last. -/
def Move.lastPressed (moves : List Move) : Option Key := (moves.filterMap pressed?).getLast?

theorem Move.lastPressed_concat (moves : List Move) (move : Move) :
    lastPressed (moves ++ [move]) = (move.pressed? <|> lastPressed moves) := by
  cases h : move.pressed? with
  | none => simp [lastPressed, h]
  | some key => simp [lastPressed, h]

namespace Resolver

variable {resolver : Resolver} {key : Key} {layer : Layer}

/-- A look-up comes before the effect of what it finds. -/
theorem resolvePress_action (resolver : Resolver) (keymap : Keymap) (config : Config) (key : Key) :
    (resolver.resolvePress keymap config key).value.2 =
      keymap.resolve config resolver.layers key := by
  have hmark : (resolver.mark key true).layers = resolver.layers := rfl
  rw [resolvePress, hmark]
  cases h : keymap.resolve config resolver.layers key <;> rfl

theorem wants_of_release (h : (resolver.release key).value.1.wants layer = true) :
    resolver.wants layer = true := by
  cases hl : resolver.latched[key] with
  | none => rwa [release_of_none hl] at h
  | some action =>
    rw [release_of_some hl, wants_iff, undo_holds, undo_toggled] at h
    exact wants_iff.mpr (h.imp_left fun hpos => Nat.lt_of_lt_of_le hpos (Nat.sub_le ..))

/-- A hold of a layer that is not active puts it on top of the stack. -/
theorem Reached.layers_press_hold (H : resolver.Reached) (hb : layer ≠ Layer.base)
    (h : resolver.layers.isActive layer = false) : ∃ upper,
    (resolver.press key (.layerHold layer)).value.layers = ⟨layer :: upper⟩ := by
  have hreleased : (resolver.release key).value.1.Reached := H.own (.release key) rfl
  -- what the key gives up before cannot activate the layer
  have hnot : ¬(resolver.release key).value.1.layers.isActive layer = true := by
    rw [isActive_iff_of_syncedAt (hreleased.syncedAt layer) hb, ← wants_iff]
    intro hwants
    have hactive := (isActive_iff_of_syncedAt (H.syncedAt layer) hb).mpr
      (wants_iff.mp (wants_of_release hwants))
    rw [h] at hactive
    cases hactive
  refine ⟨(resolver.release key).value.1.layers.upper, ?_⟩
  rw [press_value]
  simp only [outcome, perform, sync_value]
  rw [if_pos (wants_iff.mpr (.inl (by simp))), LayerStack.activate_of_not_isActive hnot]

end Resolver

namespace Engine

/-- The key waits for a decision. -/
def Pends (engine : Engine) (key : Key) : Prop :=
  ∃ since tap hold, (engine.keyState key).phase = .pending since tap hold

/-- Only the key that some moves have pressed last waits for a decision. -/
def PendsLast (engine : Engine) (made : List Move) : Prop :=
  ∀ key, engine.Pends key → Move.lastPressed made = some key

variable {engine : Engine} {keymap : Keymap} {settings : Settings} {key other presser : Key}
  {move : Move} {moves more made : List Move} {edges : Edges} {now since : Tick}
  {tap hold : BasicAction}

/-! ## Pending keys -/

theorem isPending_iff : engine.tapHold.phases[key].isPending = true ↔ engine.Pends key := by
  change (engine.keyState key).phase.isPending = true ↔ _
  rw [Pends]
  cases (engine.keyState key).phase <;> simp [TapHold.Phase.isPending]

theorem pends_congr {after : Engine} (h : after.keyState key = engine.keyState key) :
    after.Pends key ↔ engine.Pends key := by
  rw [Pends, Pends, h]

/-- Only its own press makes a key pending. -/
theorem pends_of_make (h : (engine.make move).value.Pends key) (hm : move.pressed? ≠ some key) :
    engine.Pends key := by
  obtain ⟨since, tap, hold, hphase⟩ := h
  rcases (keyStep_make engine move key).pending hphase with ⟨tap', hold', now, hd⟩ | hbefore
  · have hcause := causedBy_deed engine move
    rw [hd] at hcause
    rw [show move = .press key now from hcause] at hm
    exact absurd rfl hm
  · exact ⟨since, tap, hold, hbefore⟩

theorem pends_of_play (h : (engine.play moves).Pends key)
    (hm : ∀ move ∈ moves, move.pressed? ≠ some key) : engine.Pends key := by
  induction moves generalizing engine with
  | nil => exact h
  | cons move moves ih =>
    exact pends_of_make (ih h fun later hl => hm later (List.mem_cons_of_mem _ hl))
      (hm move List.mem_cons_self)

theorem policy_play (engine : Engine) (moves : List Move) :
    (engine.play moves).tapHold.policy = engine.tapHold.policy :=
  congrArg Prod.snd (rules_play engine moves)

/-! ## Interruptions -/

section
variable (hpolicy : engine.tapHold.policy = .holdOnOtherKeyPress)
include hpolicy

theorem not_pends_interrupt (hne : key ≠ presser) :
    ¬(engine.make (.interrupt key presser)).value.Pends key := by
  intro h
  obtain ⟨since, tap, hold, hphase⟩ := pends_of_make h nofun
  rw [make_value, deed_interrupt_of_pending hphase hpolicy hne, Pends] at h
  simp [keyState_hold] at h

/-- Once a press has interrupted all keys no other key pends. -/
theorem not_pends_interrupts (hne : key ≠ presser) :
    ¬(engine.play (Key.all.map (Move.interrupt · presser))).Pends key := by
  obtain ⟨lower, upper, hkeys⟩ := List.append_of_mem (Key.mem_all key)
  rw [hkeys, List.map_append, List.map_cons, play_append, play_cons]
  intro h
  refine not_pends_interrupt ((policy_play engine _).trans hpolicy) hne (pends_of_play h ?_)
  intro move hm
  obtain ⟨later, -, rfl⟩ := List.mem_map.mp hm
  nofun

/-- A cycle keeps it so that only the key pressed last pends. -/
theorem PendsLast.play (H : engine.PendsLast made) (h : Move.ofCycle edges now = moves ++ more) :
    (engine.play moves).PendsLast (made ++ moves) := by
  induction moves using List.reverseRecOn generalizing more with
  | nil => simpa using H
  | append_singleton moves move ih =>
    rw [List.append_assoc] at h
    intro key hpends
    rw [play_append] at hpends
    rw [← List.append_assoc, Move.lastPressed_concat]
    cases hp : move.pressed? with
    | none => exact ih h key (pends_of_make hpends (by simp [hp]))
    | some pressed =>
      obtain ⟨at', rfl⟩ : ∃ at', move = .press pressed at' := by
        cases move <;> cases hp
        exact ⟨_, rfl⟩
      obtain ⟨earlier, rfl⟩ := Move.split_at_press h
      by_contra hne
      have hother : key ≠ pressed := fun he => hne (by rw [he]; rfl)
      have hbefore := pends_of_make hpends (by simpa [Move.pressed?] using hother.symm)
      rw [play_append] at hbefore
      exact not_pends_interrupts ((policy_play engine earlier).trans hpolicy) hother hbefore

end

theorem deed_interrupt_of_not_pends (h : ¬engine.Pends key) :
    engine.deed (.interrupt key presser) = .wait := by
  rw [← isPending_iff] at h
  simp only [deed]
  split
  · next hphase => simp [hphase, TapHold.Phase.isPending] at h
  · rfl

theorem play_interrupts_of_not_pends {keys : List Key} (h : ∀ key ∈ keys, ¬engine.Pends key) :
    engine.play (keys.map (Move.interrupt · presser)) = engine := by
  induction keys with
  | nil => rfl
  | cons key keys ih =>
    rw [List.map_cons, play_cons, make_value,
      deed_interrupt_of_not_pends (h key List.mem_cons_self)]
    exact ih fun other hm => h other (List.mem_cons_of_mem _ hm)

/-- If one key pends, all that a press does to the other keys is to apply its hold. -/
theorem play_interrupts_of_pending (hpolicy : engine.tapHold.policy = .holdOnOtherKeyPress)
    (hphase : (engine.keyState other).phase = .pending since tap hold) (hne : other ≠ presser)
    (hsole : ∀ key, engine.Pends key → key = other) :
    engine.play (Key.all.map (Move.interrupt · presser)) =
      engine.carryOut (.hold other hold) := by
  obtain ⟨lower, upper, hkeys⟩ := List.append_of_mem (Key.mem_all other)
  have hnodup := Key.nodup_all
  rw [hkeys, List.nodup_middle, List.nodup_cons, List.mem_append, not_or] at hnodup
  have hlower : ∀ key ∈ lower, ¬engine.Pends key := fun key hm hp =>
    hnodup.1.1 (hsole key hp ▸ hm)
  have hupper : ∀ key ∈ upper, ¬(engine.carryOut (.hold other hold)).Pends key := by
    intro key hm hp
    have hother : other ≠ key := fun he => hnodup.1.2 (he ▸ hm)
    have hsame : (engine.carryOut (.hold other hold)).keyState key = engine.keyState key :=
      keyState_carryOut_of_ne (fun he => hother (Option.some.inj he)) nofun
    exact hother (hsole key ((pends_congr hsame).mp hp)).symm
  rw [hkeys, List.map_append, List.map_cons, play_append, play_cons,
    play_interrupts_of_not_pends hlower, make_value, deed_interrupt_of_pending hphase hpolicy hne,
    play_interrupts_of_not_pends hupper]

/-! ## Runs -/

theorem policy_run (h : Engine.new keymap settings = .ok engine) (inputs : List Input) :
    (engine.run inputs).tapHold.policy = settings.interruptPolicy := by
  obtain ⟨config, rfl⟩ := new_eq_ok h
  refine run_induction (P := fun engine => engine.tapHold.policy = settings.interruptPolicy)
    (fun _ _ H => H) (fun engine input H => ?_) (fun engine move H => ?_) (fun _ H => H) rfl inputs
  · rwa [tapHold_started]
  · exact (congrArg Prod.snd (rules_make engine move)).trans H

theorem policy_started_run (h : Engine.new keymap settings = .ok engine) (inputs : List Input)
    (input : Input) :
    ((engine.run inputs).started input).tapHold.policy = settings.interruptPolicy := by
  rw [tapHold_started, policy_run h]

theorem pendsLast_run (h : Engine.new keymap settings = .ok engine)
    (hpolicy : settings.interruptPolicy = .holdOnOtherKeyPress) (inputs : List Input) :
    (engine.run inputs).PendsLast ((engine.course inputs).map (·.move)) := by
  induction inputs using List.reverseRecOn with
  | nil =>
    obtain ⟨config, rfl⟩ := new_eq_ok h
    rintro key ⟨since, tap, hold, hphase⟩
    simp [run, keyState, TapHold.Machine.new] at hphase
  | append_singleton inputs input ih =>
    have hstarted : ((engine.run inputs).started input).PendsLast
        ((engine.course inputs).map (·.move)) := fun key hp =>
      ih key ((pends_congr (keyState_started _ input key)).mp hp)
    rw [course_concat, run_concat]
    intro key hp
    rw [pends_congr (keyState_feed_eq_play _ input key)] at hp
    cases hc : (engine.run inputs).cycleOf input with
    | none =>
      rw [movesOf, hc] at hp ⊢
      rw [List.append_nil]
      exact hstarted key hp
    | some pair =>
      rw [movesOf_eq hc] at hp ⊢
      have hpolicy' := (policy_started_run h inputs input).trans hpolicy
      exact hstarted.play hpolicy' (List.append_nil _).symm key hp

/-- An interrupted hold takes effect before the other key is looked up. If the press of a key
decides all other pending keys, then at every point of a cycle, whatever its edges, only the key
that was pressed last can pend. A press that finds another key pending applies the hold of that key
first, and the pressed key resolves to what a look-up finds on the layer stack after it. So if the
hold activates a layer on which the pressed key has an entry of its own, the key resolves to that
entry. -/
theorem interrupted_hold_comes_first (keymap : Keymap) (settings : Settings) (engine : Engine)
    (inputs : List Input) (input : Input) (edges : Edges) (now : Tick)
    (h : Engine.new keymap settings = .ok engine)
    (hpolicy : settings.interruptPolicy = .holdOnOtherKeyPress) :
    let start := (engine.run inputs).started input
    let earlier := (engine.course inputs).map (·.move)
    (∀ moves more, Move.ofCycle edges now = moves ++ more →
      let reached := start.play moves
      ∀ key : Key, reached.tapHold.phases[key].isPending = true →
        Move.lastPressed (earlier ++ moves) = some key ∧
        ∀ other : Key, reached.tapHold.phases[other].isPending = true → other = key) ∧
    ∀ moves more key other since tap hold,
      Move.ofCycle edges now = moves ++ Move.presses now key ++ more →
      let before := start.play moves
      before.tapHold.phases[other] = .pending since tap hold → other ≠ key →
      let held := before.carryOut (.hold other hold)
      let action := (held.resolver.resolvePress held.keymap held.config key).value.2
      (before.press key now).value = (held.enter key now).value ∧
      held.resolver = (before.resolver.press other hold).value ∧
      action = keymap.resolve before.config (before.resolver.press other hold).value.layers key ∧
      ∀ layer, hold = .layerHold layer → layer ≠ Layer.base →
        before.resolver.layers.isActive layer = false →
        keymap.lookup before.config layer key ≠ .noOp →
        action = keymap.lookup before.config layer key := by
  intro start earlier
  have hstart : start.tapHold.policy = .holdOnOtherKeyPress :=
    (policy_started_run h inputs input).trans hpolicy
  have hlast : start.PendsLast earlier := fun key hp =>
    pendsLast_run h hpolicy inputs key ((pends_congr (keyState_started _ input key)).mp hp)
  refine ⟨?_, ?_⟩
  · intro moves more hsplit reached key hkey
    have hreached : reached.PendsLast (earlier ++ moves) := hlast.play hstart hsplit
    have hpressed := hreached key (isPending_iff.mp hkey)
    refine ⟨hpressed, fun other hother => ?_⟩
    exact Option.some.inj ((hreached other (isPending_iff.mp hother)).symm.trans hpressed)
  · intro moves more key other since tap hold hsplit before hphase hne held action
    have hbefore : before.PendsLast (earlier ++ moves) :=
      hlast.play hstart (hsplit.trans (List.append_assoc ..))
    have hsole : ∀ key, before.Pends key → key = other := fun key hp =>
      Option.some.inj ((hbefore key hp).symm.trans (hbefore other ⟨since, tap, hold, hphase⟩))
    have hkeymap : held.keymap = keymap := by
      rw [keymap_carryOut, keymap_play]
      exact (keymap_started _ input).trans (keymap_run h inputs)
    have haction : action =
        keymap.resolve before.config (before.resolver.press other hold).value.layers key :=
      (Resolver.resolvePress_action ..).trans (by rw [hkeymap]; rfl)
    refine ⟨?_, rfl, haction, ?_⟩
    · have hinterrupts := play_interrupts_of_pending ((policy_play start moves).trans hstart)
        hphase hne hsole
      rw [press_eq_play, Move.presses, play_append]
      exact congrArg (fun engine => (engine.enter key now).value) hinterrupts
    · rintro layer rfl hb hinactive hentry
      have hreached : before.resolver.Reached := by
        have hrun := reached_run h inputs
        rw [← resolver_started _ input] at hrun
        exact reached_play hrun moves
      obtain ⟨upper, hupper⟩ := hreached.layers_press_hold hb hinactive
      rw [haction, hupper]
      exact Keymap.resolve_of_split (List.forall_mem_nil _) hentry

/-- A key that holds layer 1 pends when a key with an entry on that layer is pressed. -/
theorem interrupted_hold_comes_first_layer :
    let keymap := ((Keymap.empty.set 0 Layer.base 3 (.tapHold (.emit .escape) (.layerHold 1))).set 0
      Layer.base 5 (.emit .a)).set 0 1 5 (.emit .b)
    let inputs : List Input := [.edges (Edges.none.set 3 (some .pressed)) 0]
    let edges : Edges := Edges.none.set 5 (some .pressed)
    let moves := .switch :: Move.polls 1
    ∃ engine before, Engine.new keymap {} = .ok engine ∧
      Move.ofCycle edges 1 = moves ++ Move.presses 1 5 ++ [] ∧
      before = ((engine.run inputs).started (.edges edges 1)).play moves ∧
      before.tapHold.phases[(3 : Key)] = .pending 0 (.emit .escape) (.layerHold 1) ∧
      Move.lastPressed ((engine.course inputs).map (·.move) ++ moves) = some 3 ∧
      before.resolver.layers.isActive 1 = false ∧
      let held := before.carryOut (.hold 3 (.layerHold 1))
      (before.press 5 1).value = (held.enter 5 1).value ∧
      (held.resolver.resolvePress held.keymap held.config 5).value.2 = .emit .b := by
  intro keymap inputs edges moves
  obtain ⟨engine, hnew⟩ : ∃ engine, Engine.new keymap {} = .ok engine := ⟨_, rfl⟩
  have hsplit : Move.ofCycle edges 1 = moves ++ Move.presses 1 5 ++ [] := by decide +kernel
  obtain ⟨hlast, hpress⟩ := interrupted_hold_comes_first keymap {} engine inputs (.edges edges 1)
    edges 1 hnew rfl
  obtain ⟨before, hbefore⟩ : ∃ before,
    before = ((engine.run inputs).started (.edges edges 1)).play moves := ⟨_, rfl⟩
  obtain ⟨hphase, hinactive, hentry⟩ : before.tapHold.phases[(3 : Key)] =
      .pending 0 (.emit .escape) (.layerHold 1) ∧ before.resolver.layers.isActive 1 = false ∧
      keymap.lookup before.config 1 5 = .emit .b := by
    cases hnew
    rw [hbefore]
    decide +kernel
  have hpoint := hlast moves _ (hsplit.trans (List.append_assoc ..)) 3
  have hfound := hpress moves [] 5 3 0 (.emit .escape) (.layerHold 1) hsplit
  rw [← hbefore] at hpoint hfound
  obtain ⟨hfirst, -, -, htop⟩ := hfound hphase (by decide)
  have haction := htop 1 rfl (by decide) hinactive (by rw [hentry]; decide)
  exact ⟨engine, before, hnew, hsplit, hbefore, hphase,
    (hpoint (isPending_iff.mpr ⟨0, _, _, hphase⟩)).1, hinactive, hfirst, haction.trans hentry⟩

end Engine

end Keystroke
