import Keystroke.Proofs.Engine.Moves

/-!
# What a move comes to

A move looks at the engine and then does one of ten things to it, its `Deed`: `Engine.deed` says
which, and `Engine.carryOut` what becomes of the engine (`make_value`). A deed has its cause
(`causedBy_deed`) and is due (`due_deed`): what it presupposes of the engine holds.
-/

namespace Keystroke

/-- What a move does. -/
inductive Deed where
  | wait
  /-- No other config is due. -/
  | stay
  | switch (config : Config)
  /-- A key is pressed and its decision pends. -/
  | start (key : Key) (tap hold : BasicAction) (now : Tick)
  /-- A key is pressed and its action applied. -/
  | press (key : Key) (action : BasicAction)
  /-- A pending key is let go and its tap applied. -/
  | tap (key : Key) (action : BasicAction)
  /-- The hold of a pending key is applied. -/
  | hold (key : Key) (action : BasicAction)
  | endTap (key : Key)
  | endHold (key : Key)
  /-- A key without a hold is let go and its latch undone. -/
  | release (key : Key)
  deriving DecidableEq, Repr

/-- The key that a deed is about. -/
def Deed.key? : Deed → Option Key
  | wait | stay | switch _ => none
  | start key .. | press key _ | tap key _ | hold key _ | endTap key | endHold key
  | release key => some key

/-- The action that a deed applies, and the key it is applied for. -/
def Deed.applied? : Deed → Option (Key × BasicAction)
  | press key action | tap key action | hold key action => some (key, action)
  | _ => none

/-- The moves that can come to a deed. -/
def Deed.CausedBy : Deed → Move → Prop
  | wait, _ => True
  | stay, move | switch _, move => move = .switch
  | start key _ _ now, move => move = .press key now
  | press key _, move => ∃ now, move = .press key now
  | tap key _, move | endHold key, move | release key, move => move = .release key
  | hold key _, move =>
    (∃ now, move = .poll key now) ∨ ∃ presser, move = .interrupt key presser ∧ key ≠ presser
  | endTap key, move => ∃ now, move = .poll key now

/-- The key that a move is about. -/
def Move.key? : Move → Option Key
  | switch => none
  | poll key _ | release key | interrupt key _ | press key _ => some key

/-- The move that comes to a deed is about the same key. -/
theorem Deed.CausedBy.key?_eq {deed : Deed} {move : Move} {key : Key} (h : deed.CausedBy move)
    (hk : deed.key? = some key) : move.key? = some key := by
  cases deed with
  | wait | stay | switch config => cases hk
  | start other | tap other | endHold other | release other =>
    cases hk
    rw [show move = _ from h]
    rfl
  | press other | endTap other =>
    cases hk
    obtain ⟨now, rfl⟩ := h
    rfl
  | hold other =>
    cases hk
    rcases h with ⟨now, rfl⟩ | ⟨presser, rfl, -⟩
    · rfl
    · rfl

/-- What an engine knows of one key. -/
structure KeyState where
  down : Bool
  latch : Option BasicAction
  phase : TapHold.Phase
  deriving DecidableEq, Repr

/-- Sets the phase of one key. -/
def TapHold.Machine.setPhase (machine : Machine) (key : Key) (phase : Phase) : Machine :=
  { machine with phases := machine.phases.set key phase }

namespace Engine

/-- What is known of a key. -/
def keyState (engine : Engine) (key : Key) : KeyState :=
  ⟨engine.resolver.down[key], engine.resolver.latched[key], engine.tapHold.phases[key]⟩

/-- What a move comes to. -/
def deed (engine : Engine) : Move → Deed
  | .switch =>
    match engine.pending with
    | none => .stay
    | some config => if config = engine.config then .stay else .switch config
  | .poll key now =>
    match engine.tapHold.phases[key] with
    | .tapped _ => .endTap key
    | .pending since _ hold =>
      if engine.tapHold.threshold ≤ elapsed now since then .hold key hold else .wait
    | _ => .wait
  | .release key =>
    match engine.tapHold.phases[key] with
    | .pending _ tap _ => .tap key tap
    | .held _ => .endHold key
    | _ => .release key
  | .interrupt key presser =>
    match engine.tapHold.policy, engine.tapHold.phases[key] with
    | .holdOnOtherKeyPress, .pending _ _ hold => if key = presser then .wait else .hold key hold
    | _, _ => .wait
  | .press key now =>
    match engine.lookup key with
    | .basic action => .press key action
    | .tapHold tap hold => .start key tap hold now

/-- The engine after a deed. -/
def carryOut (engine : Engine) : Deed → Engine
  | .wait => engine
  | .stay => { engine with pending := none }
  | .switch config =>
    { engine with
      pending := none
      config
      resolver := { engine.resolver.reset with layers := {} }
      tapHold := engine.tapHold.reset }
  | .start key tap hold now =>
    { engine with
      resolver := engine.resolver.mark key true
      tapHold := engine.tapHold.setPhase key (.pending now tap hold) }
  | .press key action =>
    { engine with resolver := ((engine.resolver.mark key true).press key action).value }
  | .tap key action =>
    { engine with
      resolver := ((engine.resolver.mark key false).press key action).value
      tapHold := engine.tapHold.setPhase key (.tapped action) }
  | .hold key action =>
    { engine with
      resolver := (engine.resolver.press key action).value
      tapHold := engine.tapHold.setPhase key (.held action) }
  | .endTap key =>
    { engine with
      resolver := (engine.resolver.release key).value.1
      tapHold := engine.tapHold.setPhase key .idle }
  | .endHold key =>
    { engine with
      resolver := ((engine.resolver.mark key false).release key).value.1
      tapHold := engine.tapHold.setPhase key .idle }
  | .release key =>
    { engine with resolver := ((engine.resolver.mark key false).release key).value.1 }

/-- What a deed presupposes. -/
def Due (engine : Engine) : Deed → Prop
  | .wait => True
  | .stay => engine.pending = none ∨ engine.pending = some engine.config
  | .switch config => engine.pending = some config ∧ config ≠ engine.config
  | .start key tap hold _ => engine.lookup key = .tapHold tap hold
  | .press key action => engine.lookup key = .basic action
  | .tap key action => ∃ since hold, (engine.keyState key).phase = .pending since action hold
  | .hold key action => ∃ since tap, (engine.keyState key).phase = .pending since tap action
  | .endTap key => ∃ tap, (engine.keyState key).phase = .tapped tap
  | .endHold key => ∃ hold, (engine.keyState key).phase = .held hold
  | .release key => (engine.keyState key).phase = .idle ∨
      ∃ tap, (engine.keyState key).phase = .tapped tap

variable {engine : Engine} {move : Move} {key other : Key} {now : Tick}

/-! ## Moves and deeds -/

theorem advance_of_eq {step : TapHold.Phase → TapHold.Phase × Option TapHold.Fired}
    {phase : TapHold.Phase} {fired : Option TapHold.Fired}
    (h : step engine.tapHold.phases[key] = (phase, fired)) :
    (engine.advance key step).value = { engine with
      tapHold := engine.tapHold.setPhase key phase
      resolver := (engine.resolver.applyAll fired.toList).value } := by
  simp only [advance, h, Logged.value_bind, Logged.value_pure]
  rfl

theorem advance_of_keep {step : TapHold.Phase → TapHold.Phase × Option TapHold.Fired}
    (h : step engine.tapHold.phases[key] = (engine.tapHold.phases[key], none)) :
    (engine.advance key step).value = engine := by
  rw [advance_of_eq h, TapHold.Machine.setPhase, Slots.set_getElem_self]
  rfl

theorem make_switch_value :
    (engine.make .switch).value = engine.carryOut (engine.deed .switch) := by
  cases h : engine.pending with
  | none =>
    simp only [make, applyPending, deed, h, carryOut, Logged.value_pure]
    rw [← h]
  | some config =>
    simp only [make, applyPending, deed, h]
    split
    · rfl
    · rfl

theorem make_poll_value : (engine.make (.poll key now)).value =
    engine.carryOut (engine.deed (.poll key now)) := by
  cases h : engine.tapHold.phases[key] with
  | idle | held hold =>
    simp only [make, deed, h, carryOut]
    exact advance_of_keep (by rw [h]; rfl)
  | tapped tap =>
    have hstep : TapHold.Phase.poll engine.tapHold.threshold now key engine.tapHold.phases[key] =
        (.idle, some ⟨(key, .tapReleased tap), []⟩) := by rw [h]; rfl
    simp only [make, deed, h, carryOut]
    exact advance_of_eq hstep
  | pending since tap hold =>
    simp only [make, deed, h]
    split
    · next hdue =>
      have hstep : TapHold.Phase.poll engine.tapHold.threshold now key engine.tapHold.phases[key] =
          (.held hold, some ⟨(key, .holdPressed hold), [.holdTimedOut key hold]⟩) := by
        rw [h]; exact if_pos hdue
      exact advance_of_eq hstep
    · next hdue => exact advance_of_keep (by rw [h]; exact if_neg hdue)

theorem make_interrupt_value {presser : Key} : (engine.make (.interrupt key presser)).value =
    engine.carryOut (engine.deed (.interrupt key presser)) := by
  cases hp : engine.tapHold.policy with
  | timeoutOnly => simp only [make, deed, hp, carryOut, Logged.value_pure]
  | holdOnOtherKeyPress =>
    cases h : engine.tapHold.phases[key] with
    | idle | held hold | tapped tap =>
      simp only [make, deed, hp, h, carryOut]
      exact advance_of_keep (by rw [h]; rfl)
    | pending since tap hold =>
      simp only [make, deed, hp, h]
      split
      · next he => exact advance_of_keep (by rw [h]; exact if_pos he)
      · next he =>
        have hstep : TapHold.Phase.interrupt presser key engine.tapHold.phases[key] = (.held hold,
            some ⟨(key, .holdPressed hold), [.holdInterrupted key hold presser]⟩) := by
          rw [h]; exact if_neg he
        exact advance_of_eq hstep

theorem make_release_value : (engine.make (.release key)).value =
    engine.carryOut (engine.deed (.release key)) := by
  cases h : engine.tapHold.phases[key] with
  | idle | tapped tap | held hold | pending since tap hold =>
    simp only [make, release, TapHold.Machine.release, deed, h]
    rfl

theorem make_press_value : (engine.make (.press key now)).value =
    engine.carryOut (engine.deed (.press key now)) := by
  have hlookup : engine.keymap.resolve engine.config (engine.resolver.mark key true).layers key =
      engine.lookup key := rfl
  cases h : engine.lookup key with
  | basic action =>
    simp only [make, enter, Resolver.resolvePress, hlookup, deed, h]
    rfl
  | tapHold tap hold =>
    simp only [make, enter, Resolver.resolvePress, hlookup, deed, h]
    rfl

/-- A move does its deed. -/
theorem make_value (engine : Engine) (move : Move) :
    (engine.make move).value = engine.carryOut (engine.deed move) := by
  cases move with
  | switch => exact make_switch_value
  | poll key now => exact make_poll_value
  | release key => exact make_release_value
  | interrupt key presser => exact make_interrupt_value
  | press key now => exact make_press_value

/-- A switch to another config is carried out. -/
theorem make_switch_of_pending {config : Config} (h : engine.pending = some config)
    (hne : config ≠ engine.config) :
    (engine.make .switch).value = engine.carryOut (.switch config) := by
  rw [make_value]
  simp only [deed, h, if_neg hne]

/-- Without another config to switch to only the request is dropped. -/
theorem make_switch_of_own (h : engine.pending = none ∨ engine.pending = some engine.config) :
    (engine.make .switch).value = engine.carryOut .stay := by
  rw [make_value]
  rcases h with h | h
  · simp only [deed, h]
  · simp only [deed, h, if_true]

/-- What no deed changes is the same after all moves. -/
theorem play_of_carryOut {α : Type} {f : Engine → α}
    (h : ∀ engine deed, f (carryOut engine deed) = f engine) (engine : Engine)
    (moves : List Move) : f (engine.play moves) = f engine := by
  refine play_induction (P := fun engine' => f engine' = f engine)
    (fun engine' move hkept => ?_) rfl moves
  rw [make_value, h]
  exact hkept

/-- What only a switch changes is the same after moves without one. -/
theorem play_of_no_switch {α : Type} {f : Engine → α}
    (h : ∀ engine move, move ≠ .switch → f (engine.make move).value = f engine)
    {moves : List Move} (hs : .switch ∉ moves) (engine : Engine) :
    f (engine.play moves) = f engine := by
  induction moves generalizing engine with
  | nil => rfl
  | cons move moves ih =>
    rw [List.mem_cons, not_or] at hs
    exact (ih hs.2 _).trans (h engine move (Ne.symm hs.1))

theorem keymap_carryOut (engine : Engine) (deed : Deed) :
    (engine.carryOut deed).keymap = engine.keymap := by
  cases deed <;> rfl

theorem debouncer_carryOut (engine : Engine) (deed : Deed) :
    (engine.carryOut deed).debouncer = engine.debouncer := by
  cases deed <;> rfl

theorem config_carryOut {deed : Deed} (h : ∀ config, deed ≠ .switch config) :
    (engine.carryOut deed).config = engine.config := by
  cases deed with
  | switch config => exact absurd rfl (h config)
  | _ => rfl

theorem keymap_play (engine : Engine) (moves : List Move) :
    (engine.play moves).keymap = engine.keymap :=
  play_of_carryOut keymap_carryOut engine moves

/-- A move comes to what the state of the engine and of its key call for. -/
theorem due_deed (engine : Engine) (move : Move) : engine.Due (engine.deed move) := by
  cases move with
  | switch =>
    cases h : engine.pending with
    | none =>
      simp only [deed, h]
      exact .inl h
    | some config =>
      simp only [deed, h]
      split
      · next he => exact .inr (he ▸ h)
      · next he => exact ⟨h, he⟩
  | poll key now =>
    cases h : engine.tapHold.phases[key] with
    | idle | held hold =>
      simp only [deed, h]
      exact trivial
    | tapped tap =>
      simp only [deed, h]
      exact ⟨tap, h⟩
    | pending since tap hold =>
      simp only [deed, h]
      split
      · exact ⟨since, tap, h⟩
      · exact trivial
  | release key =>
    cases h : engine.tapHold.phases[key] with
    | idle =>
      simp only [deed, h]
      exact .inl h
    | tapped tap =>
      simp only [deed, h]
      exact .inr ⟨tap, h⟩
    | held hold =>
      simp only [deed, h]
      exact ⟨hold, h⟩
    | pending since tap hold =>
      simp only [deed, h]
      exact ⟨since, hold, h⟩
  | interrupt key presser =>
    simp only [deed]
    split
    · next h =>
      split
      · exact trivial
      · exact ⟨_, _, h⟩
    · exact trivial
  | press key now =>
    cases h : engine.lookup key with
    | basic action | tapHold tap hold =>
      simp only [deed, h]
      exact h

theorem causedBy_deed (engine : Engine) (move : Move) : (engine.deed move).CausedBy move := by
  cases move with
  | switch =>
    simp only [deed]
    split
    · rfl
    · split <;> rfl
  | poll key now =>
    simp only [deed]
    split
    · exact ⟨now, rfl⟩
    · split
      · exact .inl ⟨now, rfl⟩
      · exact trivial
    · exact trivial
  | release key =>
    simp only [deed]
    split <;> rfl
  | interrupt key presser =>
    simp only [deed]
    split
    · split
      · exact trivial
      · next hne => exact .inr ⟨presser, rfl, hne⟩
    · exact trivial
  | press key now =>
    simp only [deed]
    split
    · exact ⟨now, rfl⟩
    · rfl

theorem deed_ne_switch (h : move ≠ .switch) (config : Config) :
    engine.deed move ≠ .switch config := by
  intro hd
  have hcause := causedBy_deed engine move
  rw [hd] at hcause
  exact h hcause

section
variable {since : Tick} {tap hold : BasicAction}

theorem deed_poll_of_tapped (h : (engine.keyState key).phase = .tapped tap) :
    engine.deed (.poll key now) = .endTap key := by
  have h : engine.tapHold.phases[key] = .tapped tap := h
  simp only [deed, h]

theorem deed_poll_of_pending (h : (engine.keyState key).phase = .pending since tap hold)
    (hdue : engine.tapHold.threshold ≤ elapsed now since) :
    engine.deed (.poll key now) = .hold key hold := by
  have h : engine.tapHold.phases[key] = .pending since tap hold := h
  simp only [deed, h, if_pos hdue]

theorem deed_interrupt_of_pending (h : (engine.keyState key).phase = .pending since tap hold)
    (hpolicy : engine.tapHold.policy = .holdOnOtherKeyPress) (hne : key ≠ other) :
    engine.deed (.interrupt key other) = .hold key hold := by
  have h : engine.tapHold.phases[key] = .pending since tap hold := h
  simp only [deed, hpolicy, h, if_neg hne]

theorem deed_release_of_pending (h : (engine.keyState key).phase = .pending since tap hold) :
    engine.deed (.release key) = .tap key tap := by
  have h : engine.tapHold.phases[key] = .pending since tap hold := h
  simp only [deed, h]

theorem deed_release_of_held (h : (engine.keyState key).phase = .held hold) :
    engine.deed (.release key) = .endHold key := by
  have h : engine.tapHold.phases[key] = .held hold := h
  simp only [deed, h]

end

end Engine

end Keystroke
