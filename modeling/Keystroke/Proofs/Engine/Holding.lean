import Keystroke.Proofs.Engine.Coupling
import Keystroke.Proofs.Report

/-!
# What a held key sends

Once the action of a key has been applied, on its press or as its hold, the key is `Decided` and
stays so while it is down: only a switch to another config takes its action from it, and only its
release ends it (`decided_play`, `released_play`). What is latched after a cycle is what the cycle
reports, so a held key is in every report with all its codes, and after its release only through
other keys.
-/

namespace Keystroke

namespace KeyState

/-- The key is down and its action has been applied, on its press or as its hold, unless a switch
has taken it away since. -/
structure Decided (s : KeyState) : Prop where
  down : s.down = true
  phase : s.phase = .idle ∨ ∃ hold, s.phase = .held hold

variable {s s' : KeyState} {key : Key} {deed : Deed} {move : Move}

/-- Until its release nothing but a switch of the config does anything to a decided key. -/
theorem Decided.step (H : s.Decided) (h : KeyStep key deed s s') (hd : deed.CausedBy move)
    (ht : s.InTurn key move) (hr : move ≠ .release key) :
    s'.Decided ∧ ((∀ config, deed ≠ .switch config) → s' = s) := by
  have hpress : ∀ now, move ≠ .press key now := by
    -- a press comes in turn only when the key is up
    intro now he
    have hup := (ht.press now he).1
    rw [H.down] at hup
    cases hup
  cases h with
  | keep => exact ⟨H, fun _ => rfl⟩
  | switch => exact ⟨⟨H.down, .inl rfl⟩, fun hs => absurd rfl (hs _)⟩
  | start => exact absurd hd (hpress _)
  | press =>
    obtain ⟨now, hd⟩ := hd
    exact absurd hd (hpress now)
  | hold hphase | endTap hphase =>
    rcases H.phase with hidle | ⟨hold, hheld⟩
    · rw [hidle] at hphase
      cases hphase
    · rw [hheld] at hphase
      cases hphase
  | tap | endHold | release => exact absurd hd hr

/-- An action that is applied on the press of a key or as its hold decides the key. -/
theorem decided_of_applied {action : BasicAction} (H : s.Coherent) (h : KeyStep key deed s s')
    (hd : deed.CausedBy move) (ht : s.InTurn key move)
    (happlied : deed = .press key action ∨ deed = .hold key action) : s'.Decided := by
  rcases happlied with rfl | rfl
  · obtain ⟨now, rfl⟩ := hd
    cases h with
    | keep hk => exact absurd rfl hk
    | press => exact ⟨rfl, .inl (ht.press now rfl).2⟩
  · cases h with
    | keep hk => exact absurd rfl hk
    | hold hphase => exact ⟨(H.pending _ _ _ hphase).1, .inr ⟨_, rfl⟩⟩

end KeyState

namespace Engine

variable {engine : Engine} {keymap : Keymap} {settings : Settings} {key : Key} {edges : Edges}
  {now : Tick} {moves more : List Move} {input : Input} {latched : BasicAction}

/-! ## One cycle -/

theorem make_release_of_decided (hd : (engine.keyState key).Decided) :
    (engine.make (.release key)).value.keyState key = ⟨false, none, .idle⟩ := by
  rw [make_value]
  rcases hd.phase with hidle | ⟨hold, hheld⟩
  · have hphase : engine.tapHold.phases[key] = .idle := hidle
    simp only [deed, hphase]
    rw [keyState_release, hidle]
  · rw [deed_release_of_held hheld, keyState_endHold]

/-- From the moment a key is decided a cycle without its release keeps it decided, and if no switch
is due any more, as it is. -/
theorem decided_play (H : ∀ key, (engine.keyState key).Coherent) (ha : engine.Awaits edges)
    {rest : List Move} (h : Move.ofCycle edges now = moves ++ (more ++ rest))
    (hd : ((engine.play moves).keyState key).Decided) (hr : .release key ∉ more) :
    ((engine.play (moves ++ more)).keyState key).Decided ∧
      (.switch ∉ more → (engine.play (moves ++ more)).keyState key =
        (engine.play moves).keyState key) := by
  induction more using List.reverseRecOn generalizing rest with
  | nil =>
    rw [List.append_nil]
    exact ⟨hd, fun _ => rfl⟩
  | append_singleton more move ih =>
    rw [List.append_assoc] at h
    obtain ⟨hbefore, hsame⟩ := ih h fun hm => hr (List.mem_append_left _ hm)
    have hsplit : Move.ofCycle edges now = (moves ++ more) ++ move :: rest := by
      rw [h, List.append_assoc]
      rfl
    have hturn := inTurn_play ha hsplit (coherent_play H ha hsplit key)
    have hcause := causedBy_deed (engine.play (moves ++ more)) move
    have hmove : move ≠ .release key := fun he => hr (by simp [he])
    obtain ⟨hafter, hstep⟩ := hbefore.step (keyStep_make _ move key) hcause hturn hmove
    rw [← List.append_assoc, play_append]
    refine ⟨hafter, fun hs => ?_⟩
    simp only [List.mem_append, List.mem_singleton, not_or] at hs
    refine (hstep fun config he => ?_).trans (hsame hs.1)
    rw [he] at hcause
    exact hs.2 hcause.symm

/-- The key whose action a move applies on its press or as its hold is decided by that move. -/
theorem decided_play_of_applied {move : Move} {action : BasicAction}
    (H : ∀ key, (engine.keyState key).Coherent) (ha : engine.Awaits edges)
    (h : Move.ofCycle edges now = moves ++ move :: more)
    (happlied : (engine.play moves).deed move = .press key action ∨
      (engine.play moves).deed move = .hold key action) :
    ((engine.play (moves ++ [move])).keyState key).Decided := by
  have hcoherent := coherent_play H ha h key
  rw [play_append]
  exact KeyState.decided_of_applied hcoherent (keyStep_make _ move key) (causedBy_deed _ move)
    (inTurn_play ha h hcoherent) happlied

/-- The release of a decided key leaves nothing of it. -/
theorem released_play (H : ∀ key, (engine.keyState key).Coherent) (ha : engine.Awaits edges)
    (h : Move.ofCycle edges now = moves ++ more)
    (hd : ((engine.play moves).keyState key).Decided) (hedge : edges[key] = some .released) :
    (engine.play (Move.ofCycle edges now)).keyState key = ⟨false, none, .idle⟩ := by
  have hm : .release key ∈ more := by
    -- otherwise the key would still be down after the cycle
    by_contra hm
    have hdown := (decided_play H ha (h.trans (by rw [List.append_nil])) hd hm).1.down
    rw [← h, down_cycle_of_edge hedge] at hdown
    cases hdown
  obtain ⟨middle, rest, rfl⟩ := List.append_of_mem hm
  have hsplit : Move.ofCycle edges now =
      (moves ++ middle) ++ .ofEdge key now .released :: rest := by
    rw [h, List.append_assoc]
    rfl
  obtain ⟨-, hbefore, hafter⟩ := Move.split_at_edge hsplit
  -- decided up to its release, and up and idle from there on
  have hmiddle := decided_play H ha h hd fun hm => hbefore.release (List.mem_append_right _ hm)
  rw [hsplit, play_append, play_cons]
  exact idle_play hafter (make_release_of_decided hmiddle.1)

/-! ## One input -/

/-- The cycle of an input handles a release edge of the key. -/
def releases (engine : Engine) (input : Input) (key : Key) : Bool :=
  (engine.cycleOf input).any fun (edges, _) => edges[key] = some .released

/-- The cycle of an input applies a switch to another config. -/
def switches (engine : Engine) (input : Input) : Bool :=
  (engine.cycleOf input).isSome && engine.pending.any (· ≠ engine.config)

/-- The cycle of an input latches an action for the key, on its press or as its hold. -/
def Latches (engine : Engine) (input : Input) (key : Key) (latched : BasicAction) : Prop :=
  ∃ edges now moves move more action, engine.cycleOf input = some (edges, now) ∧
    Move.ofCycle edges now = moves ++ move :: more ∧
    let before := (engine.started input).play moves
    (before.deed move = .press key action ∨ before.deed move = .hold key action) ∧
      (before.make move).value.resolver.latched[key] = some latched

theorem Tracked.awaits_of_cycleOf (T : engine.Tracked) (hraw : input.givesEdges = false)
    (hc : engine.cycleOf input = some (edges, now)) : (engine.started input).Awaits edges := by
  cases input with
  | edges => cases hraw
  | levels levels at' =>
    cases hc
    exact T.awaits levels now
  | select config => cases hc

theorem released_of_releases (hc : engine.cycleOf input = some (edges, now)) :
    engine.releases input key = true ↔ edges[key] = some .released := by
  simp [releases, hc]

/-- What an input makes of a key that its cycle has decided. -/
theorem feed_of_decided (T : engine.Tracked) (hraw : input.givesEdges = false)
    (hc : engine.cycleOf input = some (edges, now))
    (h : Move.ofCycle edges now = moves ++ more)
    (hd : (((engine.started input).play moves).keyState key).Decided) :
    (engine.releases input key = false → ((engine.feed input).value.1.keyState key).Decided ∧
      (.switch ∉ more → (engine.feed input).value.1.keyState key =
        ((engine.started input).play moves).keyState key)) ∧
    (engine.releases input key = true →
      (engine.feed input).value.1.keyState key = ⟨false, none, .idle⟩) := by
  have H := T.coherent_started input
  have ha := T.awaits_of_cycleOf hraw hc
  rw [keyState_feed hc, ← Bool.not_eq_true, released_of_releases hc]
  refine ⟨fun hedge => ?_, released_play H ha h hd⟩
  have hr : .release key ∉ more := fun hm =>
    hedge (Move.mem_ofCycle_release.mp (h ▸ List.mem_append_right _ hm))
  rw [h]
  exact decided_play H ha (by rw [h, List.append_nil]) hd hr

theorem deed_switch_ne (hc : engine.cycleOf input = some (edges, now))
    (h : engine.switches input = false) (config : Config) :
    (engine.started input).deed .switch ≠ .switch config := by
  intro he
  have hdue := due_deed (engine.started input) .switch
  rw [he] at hdue
  obtain ⟨hpending, hne⟩ : engine.pending = some config ∧ config ≠ engine.config := by
    cases input <;> exact hdue
  simp [switches, hc, hpending, hne] at h

/-- What an input makes of a key that has been decided before. -/
theorem decided_feed (T : engine.Tracked) (hraw : input.givesEdges = false)
    (hd : (engine.keyState key).Decided) :
    (engine.releases input key = false → ((engine.feed input).value.1.keyState key).Decided ∧
      (engine.switches input = false →
        (engine.feed input).value.1.keyState key = engine.keyState key)) ∧
    (engine.releases input key = true →
      (engine.feed input).value.1.keyState key = ⟨false, none, .idle⟩) := by
  cases hc : engine.cycleOf input with
  | none =>
    obtain ⟨config, rfl⟩ := eq_select_of_cycleOf hc
    exact ⟨fun _ => ⟨hd, fun _ => rfl⟩, nofun⟩
  | some pair =>
    obtain ⟨edges, now⟩ := pair
    obtain ⟨rest, hsplit⟩ : ∃ rest, Move.ofCycle edges now = [.switch] ++ rest := ⟨_, rfl⟩
    have hstarted : ((engine.started input).keyState key).Decided := by rwa [keyState_started]
    obtain ⟨hswitched, hstay⟩ := hstarted.step (keyStep_make (engine.started input) .switch key)
      (causedBy_deed _ _) ⟨nofun, nofun⟩ nofun
    obtain ⟨hkept, hreleased⟩ := feed_of_decided T hraw hc hsplit hswitched
    refine ⟨fun hr => ⟨(hkept hr).1, fun hs => ?_⟩, hreleased⟩
    calc (engine.feed input).value.1.keyState key
        = ((engine.started input).make .switch).value.keyState key :=
          (hkept hr).2 (Move.switch_notMem_of_ofCycle_eq hsplit (List.cons_ne_nil _ _))
      _ = (engine.started input).keyState key := hstay (deed_switch_ne hc hs)
      _ = engine.keyState key := keyState_started engine input key

/-- What an input makes of a key that its cycle latches an action for. -/
theorem latches_feed (T : engine.Tracked) (hraw : input.givesEdges = false)
    (hl : engine.Latches input key latched) :
    (engine.releases input key = false → ((engine.feed input).value.1.keyState key).Decided ∧
      ((engine.feed input).value.1.keyState key).latch = some latched) ∧
    (engine.releases input key = true →
      (engine.feed input).value.1.keyState key = ⟨false, none, .idle⟩) := by
  obtain ⟨edges, now, moves, move, more, action, hc, hsplit, happlied, hlatched⟩ := hl
  have hdecided := decided_play_of_applied (T.coherent_started input)
    (T.awaits_of_cycleOf hraw hc) hsplit happlied
  have hafter := hsplit.trans (List.append_cons moves move more)
  obtain ⟨hkept, hreleased⟩ := feed_of_decided T hraw hc hafter hdecided
  refine ⟨fun hr => ⟨(hkept hr).1, ?_⟩, hreleased⟩
  rw [(hkept hr).2 (Move.switch_notMem_of_ofCycle_eq hafter (by simp)), play_append]
  exact hlatched

/-! ## Runs -/

/-- A property of every input of a run and the state it is fed to. -/
def Along (P : Engine → Input → Prop) (engine : Engine) : List Input → Prop
  | [] => True
  | input :: inputs => P engine input ∧ (engine.feed input).value.1.Along P inputs

theorem along_append {P : Engine → Input → Prop} {inputs more : List Input} :
    engine.Along P (inputs ++ more) ↔ engine.Along P inputs ∧ (engine.run inputs).Along P more := by
  induction inputs generalizing engine with
  | nil => exact (true_and _).symm.to_iff
  | cons input inputs ih => exact (and_congr_right fun _ => ih).trans and_assoc.symm

theorem decided_run (T : engine.Tracked) {inputs : List Input}
    (hraw : ∀ input ∈ inputs, input.givesEdges = false) (hd : (engine.keyState key).Decided)
    (hr : engine.Along (fun engine input => engine.releases input key = false) inputs) :
    (engine.run inputs).Tracked ∧ ((engine.run inputs).keyState key).Decided ∧
      (engine.Along (fun engine input => engine.switches input = false) inputs →
        (engine.run inputs).keyState key = engine.keyState key) := by
  induction inputs generalizing engine with
  | nil => exact ⟨T, hd, fun _ => rfl⟩
  | cons input inputs ih =>
    have hfirst := hraw input List.mem_cons_self
    obtain ⟨hd', hsame⟩ := (decided_feed T hfirst hd).1 hr.1
    obtain ⟨T', hd'', hrest⟩ := ih (T.feed hfirst)
      (fun later hm => hraw later (List.mem_cons_of_mem _ hm)) hd' hr.2
    exact ⟨T', hd'', fun hs => (hrest hs.2).trans (hsame hs.1)⟩

/-- After an input an action is latched for the key, and the input reports all its codes. -/
structure Sends (engine : Engine) (input : Input) (key : Key) (latched : BasicAction) : Prop where
  latch : (engine.feed input).value.1.resolver.latched[key] = some latched
  codes : ∀ cycle, (engine.feed input).value.2 = some cycle →
    ∀ code ∈ latched.codes, code ∈ cycle.report.codes

/-- After an input nothing is latched for the key, and the input reports no code that is not of an
action of another key. -/
structure LetsGo (engine : Engine) (input : Input) (key : Key) : Prop where
  latch : (engine.feed input).value.1.resolver.latched[key] = none
  codes : ∀ cycle, (engine.feed input).value.2 = some cycle → ∀ code ∈ cycle.report.codes,
    ∃ (other : Key) (action : BasicAction), other ≠ key ∧
      (engine.feed input).value.1.resolver.latched[other] = some action ∧ code ∈ action.codes

theorem sends_of_latched (h : (engine.feed input).value.1.resolver.latched[key] = some latched) :
    engine.Sends input key latched :=
  ⟨h, fun _ hcycle _ hm => (mem_codes_feed hcycle).mpr ⟨key, latched, h, hm⟩⟩

theorem letsGo_of_latched_none (h : (engine.feed input).value.1.resolver.latched[key] = none) :
    engine.LetsGo input key := by
  refine ⟨h, fun cycle hcycle code hm => ?_⟩
  obtain ⟨other, action, hlatched, hcode⟩ := (mem_codes_feed hcycle).mp hm
  refine ⟨other, action, fun he => ?_, hlatched, hcode⟩
  rw [he, h] at hlatched
  cases hlatched

/-- A held key keeps sending what it was latched as. If a cycle of a run on raw levels latches an
action for a key, on its press or as its hold, then the action stays latched and all its codes are
reported, by that cycle and by all that follow, until a cycle handles the release of the key or
applies a switch to another config. The cycle that handles the release leaves nothing latched for
the key and reports only what other keys have latched. -/
theorem held_key_keeps_sending (keymap : Keymap) (settings : Settings) (engine : Engine)
    (inputs : List Input) (input : Input) (key : Key) (latched : BasicAction)
    (h : Engine.new keymap settings = .ok engine)
    (hraw : ∀ given ∈ inputs ++ [input], given.givesEdges = false)
    (hl : (engine.run inputs).Latches input key latched) :
    let before := engine.run inputs
    let after := (before.feed input).value.1
    (before.releases input key = false → before.Sends input key latched) ∧
    (before.releases input key = true → before.LetsGo input key) ∧
    ∀ (later : List Input) (next : Input),
      (∀ given ∈ later ++ [next], given.givesEdges = false) →
      before.releases input key = false →
      after.Along (fun engine input => engine.releases input key = false) later →
      ((after.run later).releases next key = false →
        after.Along (fun engine input => engine.switches input = false) (later ++ [next]) →
        (after.run later).Sends next key latched) ∧
      ((after.run later).releases next key = true → (after.run later).LetsGo next key) := by
  intro before after
  have T : before.Tracked :=
    tracked_run h fun given hm => hraw given (List.mem_append_left _ hm)
  have hinput : input.givesEdges = false := hraw input (by simp)
  obtain ⟨hkept, hreleased⟩ := latches_feed T hinput hl
  refine ⟨fun hr => sends_of_latched (hkept hr).2, fun hr => letsGo_of_latched_none ?_, ?_⟩
  · exact congrArg KeyState.latch (hreleased hr)
  · intro later next hlater hr halong
    obtain ⟨T', hd, hsame⟩ := decided_run (T.feed hinput)
      (fun given hm => hlater given (List.mem_append_left _ hm)) (hkept hr).1 halong
    obtain ⟨hnext, hgone⟩ := decided_feed T' (hlater next (by simp)) hd
    refine ⟨fun hr' hs => sends_of_latched ?_, fun hr' => letsGo_of_latched_none ?_⟩
    · obtain ⟨hearlier, hs', -⟩ := along_append.mp hs
      calc (((after.run later).feed next).value.1.keyState key).latch
          = ((after.run later).keyState key).latch := congrArg KeyState.latch ((hnext hr').2 hs')
        _ = (after.keyState key).latch := congrArg KeyState.latch (hsame hearlier)
        _ = some latched := (hkept hr).2
    · exact congrArg KeyState.latch (hgone hr')

/-- A chord is held from the threshold on. Another key shares a code with it, and that code is left
in the report when the chord is let go. -/
theorem held_key_keeps_sending_chord :
    let chord : BasicAction := .chord (.pair .leftCtrl .c)
    let keymap := (Keymap.empty.set 0 Layer.base 3 (.tapHold (.emit .escape) chord)).set 0
      Layer.base 5 (.emit .c)
    let settings : Settings := { debounceSamples := 1, tapHoldTicks := 2 }
    let both : Levels := ((Slots.fill false).set 3 true).set 5 true
    let inputs : List Input := [.levels ((Slots.fill false).set 3 true) 0]
    let later : List Input := [.select 0, .levels ((Slots.fill false).set 3 true) 3]
    ∃ engine, Engine.new keymap settings = .ok engine ∧
      let before := engine.run inputs
      let after := (before.feed (.levels both 2)).value.1
      before.Latches (.levels both 2) 3 chord ∧ before.Sends (.levels both 2) 3 chord ∧
      (after.run later).Sends (.levels both 4) 3 chord ∧
      (after.run later).LetsGo (.levels ((Slots.fill false).set 5 true) 4) 3 ∧
      ((after.run later).feed (.levels ((Slots.fill false).set 5 true) 4)).value.2.map
        (·.report.codes) = some [.c] := by
  intro chord keymap settings both inputs later
  obtain ⟨engine, hnew⟩ : ∃ engine, Engine.new keymap settings = .ok engine := ⟨_, rfl⟩
  refine ⟨engine, hnew, ?_⟩
  intro before after
  have hraw : ∀ given ∈ inputs ++ [.levels both 2], given.givesEdges = false := by decide +kernel
  have hlatches : before.Latches (.levels both 2) 3 chord := by
    refine ⟨_, 2, [.switch, .poll 0 2, .poll 1 2, .poll 2 2], .poll 3 2,
      (Move.ofCycle (before.debouncer.sampleAll both 2).value.2 2).drop 5, chord, rfl, ?_, ?_, ?_⟩
    · rfl
    · cases hnew
      decide +kernel
    · cases hnew
      decide +kernel
  have hheld : before.releases (.levels both 2) 3 = false := by
    cases hnew
    decide +kernel
  have hlater : after.Along (fun engine input => engine.releases input 3 = false) later := by
    refine ⟨?_, ?_, trivial⟩ <;> cases hnew <;> decide +kernel
  have hstay : after.Along (fun engine input => engine.switches input = false)
      (later ++ [.levels both 4]) := by
    refine ⟨?_, ?_, ?_, trivial⟩ <;> cases hnew <;> decide +kernel
  obtain ⟨hsends, -, hrest⟩ :=
    held_key_keeps_sending keymap settings engine inputs (.levels both 2) 3 chord hnew hraw hlatches
  refine ⟨hlatches, hsends hheld, ?_, ?_, ?_⟩
  · refine (hrest later (.levels both 4) (by decide +kernel) hheld hlater).1 ?_ hstay
    cases hnew
    decide +kernel
  · refine (hrest later (.levels ((Slots.fill false).set 5 true) 4) (by decide +kernel) hheld
      hlater).2 ?_
    cases hnew
    decide +kernel
  · cases hnew
    decide +kernel

end Engine

end Keystroke
