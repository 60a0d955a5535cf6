import Keystroke.Proofs.Engine.Deeds

/-!
# What becomes of one key

A deed changes the state of its own key alone, except that a config switch clears all of them.
`KeyStep` lists what can become of a key, and `keyStep_make` says that each move takes every key
one such step. Only its own edges change the level of a key (`down_play`), and it is tapped after
its poll only if it has been released since (`mem_release_of_tapped`).
-/

namespace Keystroke

/-- What a deed makes of the state of one key. -/
inductive KeyStep (key : Key) : Deed → KeyState → KeyState → Prop where
  | keep : deed.key? ≠ some key → (∀ config, deed ≠ .switch config) → KeyStep key deed s s
  | switch : KeyStep key (.switch config) s { s with latch := none, phase := .idle }
  | start : KeyStep key (.start key tap hold now) s
      { s with down := true, phase := .pending now tap hold }
  | press : action.ComesOutAs latched →
      KeyStep key (.press key action) s { s with down := true, latch := some latched }
  | tap : s.phase = .pending since action hold → action.ComesOutAs latched →
      KeyStep key (.tap key action) s ⟨false, some latched, .tapped action⟩
  | hold : s.phase = .pending since tap action → action.ComesOutAs latched →
      KeyStep key (.hold key action) s ⟨s.down, some latched, .held action⟩
  | endTap : s.phase = .tapped tap → KeyStep key (.endTap key) s ⟨s.down, none, .idle⟩
  | endHold : s.phase = .held hold → KeyStep key (.endHold key) s ⟨false, none, .idle⟩
  | release : (s.phase = .idle ∨ ∃ tap, s.phase = .tapped tap) →
      KeyStep key (.release key) s ⟨false, none, s.phase⟩

namespace KeyStep

variable {key : Key} {deed : Deed} {s s' : KeyState}

/-- Only a tap makes a key tapped. -/
theorem tapped {tap : BasicAction} (h : KeyStep key deed s s') (ht : s'.phase = .tapped tap) :
    (∃ action, deed = .tap key action) ∨ s.phase = .tapped tap := by
  cases h with
  | keep | press => exact .inr ht
  | tap => exact .inl ⟨_, rfl⟩
  | release => exact .inr ht
  | switch | start | hold | endTap | endHold => cases ht

/-- Only the start of a decision makes a key pending. -/
theorem pending {since : Tick} {tap hold : BasicAction} (h : KeyStep key deed s s')
    (hp : s'.phase = .pending since tap hold) :
    (∃ tap hold now, deed = .start key tap hold now) ∨ s.phase = .pending since tap hold := by
  cases h with
  | keep | press | release => exact .inr hp
  | start => exact .inl ⟨_, _, _, rfl⟩
  | switch | tap | hold | endTap | endHold => cases hp

/-- Only its own edges change the level of a key. -/
theorem down_eq {move : Move} (h : KeyStep key deed s s') (hd : deed.CausedBy move)
    (hp : ∀ now, move ≠ .press key now) (hr : move ≠ .release key) : s'.down = s.down := by
  cases h with
  | keep | switch | hold | endTap => rfl
  | tap | endHold | release => exact absurd hd hr
  | start => exact absurd hd (hp _)
  | press =>
    obtain ⟨now, hd⟩ := hd
    exact absurd hd (hp now)

/-- A key that is up and idle with nothing latched waits for an edge. -/
theorem idle_eq {move : Move} (h : KeyStep key deed s s') (hs : s = ⟨false, none, .idle⟩)
    (hd : deed.CausedBy move) (hp : ∀ now, move ≠ .press key now) (hr : move ≠ .release key) :
    s' = ⟨false, none, .idle⟩ := by
  subst hs
  cases h with
  | keep | switch => rfl
  | start => exact absurd hd (hp _)
  | press =>
    obtain ⟨now, hd⟩ := hd
    exact absurd hd (hp now)
  | tap hphase | hold hphase | endTap hphase | endHold hphase => cases hphase
  | release => exact absurd hd hr

end KeyStep

namespace Engine

variable {engine : Engine} {key : Key} {now : Tick}

/-! ## One move -/

theorem keyState_carryOut_of_ne {deed : Deed} (h : deed.key? ≠ some key)
    (hs : ∀ config, deed ≠ .switch config) :
    (engine.carryOut deed).keyState key = engine.keyState key := by
  cases deed with
  | wait | stay => rfl
  | switch config => exact absurd rfl (hs config)
  | start other | press other | tap other | hold other | endTap other | endHold other
  | release other =>
    have hne : other ≠ key := fun he => h (congrArg some he)
    simp only [carryOut, keyState, Resolver.mark, Resolver.press_down, Resolver.press_latched,
      Resolver.release_down, Resolver.release_latched, TapHold.Machine.setPhase,
      Slots.getElem_set_ne _ hne]

theorem keyState_switch (engine : Engine) (config : Config) (key : Key) :
    (engine.carryOut (.switch config)).keyState key =
      { engine.keyState key with latch := none, phase := .idle } := by
  simp [carryOut, keyState, Resolver.reset, Resolver.new, TapHold.Machine.reset,
    TapHold.Machine.new]

theorem keyState_start (engine : Engine) (key : Key) (tap hold : BasicAction) (now : Tick) :
    (engine.carryOut (.start key tap hold now)).keyState key =
      { engine.keyState key with down := true, phase := .pending now tap hold } := by
  simp [carryOut, keyState, Resolver.mark, TapHold.Machine.setPhase]

theorem keyState_press (engine : Engine) (key : Key) (action : BasicAction) :
    (engine.carryOut (.press key action)).keyState key =
      { engine.keyState key with
        down := true, latch := some ((engine.resolver.mark key true).outcome action) } := by
  simp [carryOut, keyState, Resolver.mark, Resolver.press_down, Resolver.press_latched]

theorem keyState_tap (engine : Engine) (key : Key) (action : BasicAction) :
    (engine.carryOut (.tap key action)).keyState key =
      ⟨false, some ((engine.resolver.mark key false).outcome action), .tapped action⟩ := by
  simp [carryOut, keyState, Resolver.mark, Resolver.press_down, Resolver.press_latched,
    TapHold.Machine.setPhase]

theorem keyState_hold (engine : Engine) (key : Key) (action : BasicAction) :
    (engine.carryOut (.hold key action)).keyState key =
      ⟨(engine.keyState key).down, some (engine.resolver.outcome action), .held action⟩ := by
  simp [carryOut, keyState, Resolver.press_down, Resolver.press_latched, TapHold.Machine.setPhase]

theorem keyState_endTap (engine : Engine) (key : Key) :
    (engine.carryOut (.endTap key)).keyState key =
      ⟨(engine.keyState key).down, none, .idle⟩ := by
  simp [carryOut, keyState, Resolver.release_down, Resolver.release_latched,
    TapHold.Machine.setPhase]

theorem keyState_endHold (engine : Engine) (key : Key) :
    (engine.carryOut (.endHold key)).keyState key = ⟨false, none, .idle⟩ := by
  simp [carryOut, keyState, Resolver.mark, Resolver.release_down, Resolver.release_latched,
    TapHold.Machine.setPhase]

theorem keyState_release (engine : Engine) (key : Key) :
    (engine.carryOut (.release key)).keyState key =
      ⟨false, none, (engine.keyState key).phase⟩ := by
  simp [carryOut, keyState, Resolver.mark, Resolver.release_down, Resolver.release_latched]

theorem keyStep_carryOut {deed : Deed} (h : engine.Due deed) (key : Key) :
    KeyStep key deed (engine.keyState key) ((engine.carryOut deed).keyState key) := by
  by_cases hk : deed.key? = some key
  · cases deed with
    | wait | stay | switch config => cases hk
    | start other tap hold now =>
      cases hk
      rw [keyState_start]
      exact .start
    | press other action =>
      cases hk
      rw [keyState_press]
      exact .press (Resolver.comesOutAs_outcome _ _)
    | tap other action =>
      cases hk
      obtain ⟨since, hold, hphase⟩ := h
      rw [keyState_tap]
      exact .tap hphase (Resolver.comesOutAs_outcome _ _)
    | hold other action =>
      cases hk
      obtain ⟨since, tap, hphase⟩ := h
      rw [keyState_hold]
      exact .hold hphase (Resolver.comesOutAs_outcome _ _)
    | endTap other =>
      cases hk
      obtain ⟨tap, hphase⟩ := h
      rw [keyState_endTap]
      exact .endTap hphase
    | endHold other =>
      cases hk
      obtain ⟨hold, hphase⟩ := h
      rw [keyState_endHold]
      exact .endHold hphase
    | release other =>
      cases hk
      rw [keyState_release]
      exact .release h
  · by_cases hs : ∃ config, deed = .switch config
    · obtain ⟨config, rfl⟩ := hs
      rw [keyState_switch]
      exact .switch
    · have hs : ∀ config, deed ≠ .switch config := fun config he => hs ⟨config, he⟩
      rw [keyState_carryOut_of_ne hk hs]
      exact .keep hk hs

/-- A move takes every key one step. -/
theorem keyStep_make (engine : Engine) (move : Move) (key : Key) :
    KeyStep key (engine.deed move) (engine.keyState key)
      ((engine.make move).value.keyState key) := by
  rw [make_value]
  exact keyStep_carryOut (due_deed engine move) key

/-- A key that has been let go does not pend. -/
theorem phase_make_release (engine : Engine) (key : Key) (since : Tick) (tap hold : BasicAction) :
    ((engine.make (.release key)).value.keyState key).phase ≠ .pending since tap hold := by
  rw [make_value]
  simp only [deed]
  split
  · rw [keyState_tap]
    intro he
    cases he
  · rw [keyState_endHold]
    intro he
    cases he
  · next h _ =>
    rw [keyState_release]
    exact h since tap hold

/-- A move changes the state of its own key alone. -/
theorem keyState_make_of_ne {move : Move} (hk : move.key? ≠ some key) (hs : move ≠ .switch) :
    (engine.make move).value.keyState key = engine.keyState key := by
  rw [make_value]
  exact keyState_carryOut_of_ne (fun he => hk ((causedBy_deed engine move).key?_eq he))
    (deed_ne_switch hs)

theorem keyState_started (engine : Engine) (input : Input) (key : Key) :
    (engine.started input).keyState key = engine.keyState key := by
  rw [keyState, resolver_started, tapHold_started, keyState]

theorem keyState_close (engine : Engine) (key : Key) :
    engine.collectRequest.assemble.1.keyState key = engine.keyState key := rfl

theorem keyState_feed {input : Input} {edges : Edges}
    (hc : engine.cycleOf input = some (edges, now)) :
    (engine.feed input).value.1.keyState key =
      ((engine.started input).play (Move.ofCycle edges now)).keyState key := by
  rw [feed_of_cycleOf hc, keyState_close]

/-! ## Moves in a row -/

theorem not_tapped_poll (engine : Engine) (key : Key) (now : Tick) (tap : BasicAction) :
    ((engine.make (.poll key now)).value.keyState key).phase ≠ .tapped tap := by
  intro ht
  rcases (keyStep_make engine (.poll key now) key).tapped ht with ⟨action, hd⟩ | hbefore
  · have hcause := causedBy_deed engine (.poll key now)
    rw [hd] at hcause
    cases hcause
  · rw [make_value, deed_poll_of_tapped hbefore, keyState_endTap] at ht
    cases ht

/-- After its poll a key is tapped only once it has been released. -/
theorem mem_release_of_tapped {moves : List Move} {tap : BasicAction}
    (hpoll : .poll key now ∈ moves) (h : ((engine.play moves).keyState key).phase = .tapped tap) :
    .release key ∈ moves := by
  induction moves using List.reverseRecOn with
  | nil => cases hpoll
  | append_singleton moves move ih =>
    rw [play_append, play_cons, play_nil] at h
    rcases (keyStep_make (engine.play moves) move key).tapped h with ⟨action, hd⟩ | hbefore
    · have hcause := causedBy_deed (engine.play moves) move
      rw [hd] at hcause
      rw [show move = .release key from hcause]
      exact List.mem_append_right moves List.mem_cons_self
    · rcases List.mem_append.mp hpoll with hpoll | hpoll
      · exact List.mem_append_left _ (ih hpoll hbefore)
      · obtain rfl := List.mem_singleton.mp hpoll
        exact absurd h (not_tapped_poll _ key now tap)

/-- A key that is up and idle with nothing latched stays so until its next edge. -/
theorem idle_play {moves : List Move} (h : Move.EdgeFree key moves)
    (hidle : engine.keyState key = ⟨false, none, .idle⟩) :
    (engine.play moves).keyState key = ⟨false, none, .idle⟩ := by
  induction moves generalizing engine with
  | nil => exact hidle
  | cons move moves ih =>
    obtain ⟨hp, hr, hrest⟩ := h.of_cons
    exact ih hrest ((keyStep_make engine move key).idle_eq hidle (causedBy_deed engine move) hp hr)

theorem down_play {moves : List Move} (h : Move.EdgeFree key moves) :
    ((engine.play moves).keyState key).down = (engine.keyState key).down := by
  induction moves generalizing engine with
  | nil => rfl
  | cons move moves ih =>
    obtain ⟨hp, hr, hrest⟩ := h.of_cons
    exact (ih hrest).trans
      ((keyStep_make engine move key).down_eq (causedBy_deed engine move) hp hr)

end Engine

end Keystroke
