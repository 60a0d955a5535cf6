import Keystroke.Proofs.Engine.Holding

/-!
# Which decisions reach a report

The edges of a key alternate if each leads away from the level that the one before has led to. In a
run on such edges an action that a cycle applies is reported by that cycle, with one exception: a
hold that times out in the cycle that handles the release of its key is undone before the report is
assembled (`keyState_cycle_of_applied`, `keyState_cycle_of_lost`).
-/

namespace Keystroke

/-- Each edge leads away from the level before it. -/
def Edge.Alternates : Bool → List Edge → Prop
  | _, [] => True
  | level, edge :: edges => edge.level = !level ∧ Alternates edge.level edges

instance Edge.decidableAlternates : (level : Bool) → (edges : List Edge) →
    Decidable (Alternates level edges)
  | _, [] => .isTrue trivial
  | level, edge :: edges =>
    have := decidableAlternates edge.level edges
    inferInstanceAs (Decidable (edge.level = !level ∧ Alternates edge.level edges))

theorem Deed.applied?_eq_some {deed : Deed} {key : Key} {action : BasicAction}
    (h : deed.applied? = some (key, action)) :
    deed = .tap key action ∨ deed = .press key action ∨ deed = .hold key action := by
  cases deed with
  | press | tap | hold =>
    cases h
    simp
  | _ => cases h

theorem Move.eq_now_of_mem_poll {key : Key} {edges : Edges} {now at' : Tick}
    (h : poll key at' ∈ ofCycle edges now) : at' = now := by
  simpa [ofCycle, polls, releases, pressesAll, presses, eq_comm] using h

namespace KeyStep

variable {key : Key} {deed : Deed} {s s' : KeyState} {move : Move}

/-- A tap lasts until the next poll of its key, unless an edge or a switch comes first. -/
theorem eq_of_tapped {tap : BasicAction} (h : KeyStep key deed s s') (ht : s.phase = .tapped tap)
    (hd : deed.CausedBy move) (hs : move ≠ .switch) (hpoll : ∀ now, move ≠ .poll key now)
    (hp : ∀ now, move ≠ .press key now) (hr : move ≠ .release key) : s' = s := by
  cases h with
  | keep => rfl
  | switch => exact absurd hd hs
  | start => exact absurd hd (hp _)
  | press =>
    obtain ⟨now, hd⟩ := hd
    exact absurd hd (hp now)
  | endTap =>
    obtain ⟨now, hd⟩ := hd
    exact absurd hd (hpoll now)
  | tap | endHold | release => exact absurd hd hr
  | hold hphase =>
    rw [ht] at hphase
    cases hphase

end KeyStep

namespace Engine

variable {engine : Engine} {keymap : Keymap} {settings : Settings} {key : Key} {edges : Edges}
  {now : Tick} {moves more : List Move} {move : Move} {action : BasicAction}
  {given : List (Edges × Tick)}

/-! ## Runs on edges that alternate -/

/-- The inputs that hand some edges to an engine, cycle after cycle. -/
def Input.ofEdges (given : List (Edges × Tick)) : List Input :=
  given.map fun (edges, now) => .edges edges now

/-- The edges of one key. -/
def edgesOf (key : Key) (given : List (Edges × Tick)) : List Edge := given.filterMap (·.1[key])

theorem edgesOf_cons (key : Key) (edges : Edges) (now : Tick) (given : List (Edges × Tick)) :
    edgesOf key ((edges, now) :: given) = edges[key].toList ++ edgesOf key given := by
  rw [edgesOf, List.filterMap_cons]
  cases edges[key] <;> rfl

theorem awaits_of_alternates
    (halt : ∀ key, Edge.Alternates (engine.keyState key).down (edgesOf key ((edges, now) :: given))) :
    engine.Awaits edges := by
  intro key edge hedge
  have hkey := halt key
  rw [edgesOf_cons, hedge] at hkey
  rw [hkey.1, Bool.not_not]

theorem alternates_feed
    (halt : ∀ key, Edge.Alternates (engine.keyState key).down (edgesOf key ((edges, now) :: given)))
    (key : Key) : Edge.Alternates ((engine.feed (.edges edges now)).value.1.keyState key).down
      (edgesOf key given) := by
  have hkey := halt key
  rw [keyState_feed rfl]
  cases hedge : edges[key] with
  | none =>
    rw [edgesOf_cons, hedge] at hkey
    rwa [down_play (Move.edgeFree_ofCycle hedge)]
  | some edge =>
    rw [edgesOf_cons, hedge] at hkey
    rw [down_cycle_of_edge hedge]
    exact hkey.2

/-- The next edges of a run come to keys that wait for them. -/
theorem coherent_and_awaits_run (H : ∀ key, (engine.keyState key).Coherent)
    (halt : ∀ key, Edge.Alternates (engine.keyState key).down
      (edgesOf key (given ++ [(edges, now)]))) :
    (∀ key, ((engine.run (Input.ofEdges given)).keyState key).Coherent) ∧
      (engine.run (Input.ofEdges given)).Awaits edges := by
  induction given generalizing engine with
  | nil => exact ⟨H, awaits_of_alternates halt⟩
  | cons first given ih =>
    obtain ⟨edges', now'⟩ := first
    have hafter : ∀ key,
        ((engine.feed (.edges edges' now')).value.1.keyState key).Coherent := by
      intro key
      rw [keyState_feed rfl]
      exact coherent_play H (awaits_of_alternates halt) (List.append_nil _).symm key
    exact ih hafter (alternates_feed halt)

/-! ## What becomes of an applied action -/

theorem keyState_play_of_tapped {tap : BasicAction} (ht : (engine.keyState key).phase = .tapped tap)
    (hfree : Move.EdgeFree key more) (hpoll : ∀ now, .poll key now ∉ more)
    (hs : .switch ∉ more) : (engine.play more).keyState key = engine.keyState key := by
  induction more generalizing engine with
  | nil => rfl
  | cons move more ih =>
    obtain ⟨hp, hr, hrest⟩ := hfree.of_cons
    have hstep := (keyStep_make engine move key).eq_of_tapped ht (causedBy_deed engine move)
      (fun he => hs (he ▸ List.mem_cons_self)) (fun now he => hpoll now (he ▸ List.mem_cons_self))
      hp hr
    rw [play_cons, ih (by rw [hstep, ht]) hrest (fun now hm => hpoll now (List.mem_cons_of_mem _ hm))
      fun hm => hs (List.mem_cons_of_mem _ hm), hstep]

/-- A tap lasts to the end of its cycle. -/
theorem keyState_cycle_of_tap (h : Move.ofCycle edges now = moves ++ .release key :: more)
    (hdeed : (engine.play moves).deed (.release key) = .tap key action) :
    (engine.play (Move.ofCycle edges now)).keyState key =
      ((engine.play moves).make (.release key)).value.keyState key := by
  have hsplit : Move.ofCycle edges now = moves ++ .ofEdge key now .released :: more := h
  obtain ⟨-, -, hfree⟩ := Move.split_at_edge hsplit
  have hstage := Move.pairwise_stage_ofCycle edges now
  rw [h, List.pairwise_append, List.pairwise_cons] at hstage
  have hlater : ∀ other ∈ more, 2 ≤ other.stage := hstage.2.1.1
  have htapped : (((engine.play moves).make (.release key)).value.keyState key).phase =
      .tapped action := by
    rw [make_value, hdeed, keyState_tap]
  rw [h, play_append, play_cons]
  refine keyState_play_of_tapped htapped hfree (fun at' hm => ?_) fun hm => ?_
  · exact absurd (show 2 ≤ 1 from hlater _ hm) (by decide)
  · exact absurd (show 2 ≤ 0 from hlater _ hm) (by decide)

/-- Among the moves that press a key or hold it only its poll comes before its release. -/
theorem eq_poll_of_before_release {deed : Deed}
    (h : Move.ofCycle edges now = moves ++ move :: more) (hd : deed.CausedBy move)
    (hdeed : deed = .press key action ∨ deed = .hold key action) (hm : .release key ∈ more) :
    move = .poll key now := by
  have hmem : move ∈ Move.ofCycle edges now := by simp [h]
  have hstage := Move.pairwise_stage_ofCycle edges now
  rw [h, List.pairwise_append, List.pairwise_cons] at hstage
  have hle : move.stage ≤ 2 := hstage.2.1.1 _ hm
  rcases hdeed with rfl | rfl
  · obtain ⟨at', rfl⟩ := hd
    exact absurd (show 3 + key.val ≤ 2 from hle) (by omega)
  · rcases hd with ⟨at', rfl⟩ | ⟨presser, rfl, -⟩
    · rw [Move.eq_now_of_mem_poll hmem]
    · exact absurd (show 3 + presser.val ≤ 2 from hle) (by omega)

/-- What an applied action comes out as is latched to the end of its cycle, unless a hold times out
in the cycle that handles the release of its key. -/
theorem keyState_cycle_of_applied (H : ∀ key, (engine.keyState key).Coherent)
    (ha : engine.Awaits edges) (h : Move.ofCycle edges now = moves ++ move :: more)
    (happlied : ((engine.play moves).deed move).applied? = some (key, action))
    (hkept : ¬(move = .poll key now ∧ edges[key] = some .released)) :
    (engine.play (Move.ofCycle edges now)).keyState key =
      ((engine.play moves).make move).value.keyState key := by
  have hcause := causedBy_deed (engine.play moves) move
  rcases Deed.applied?_eq_some happlied with hdeed | hdeed
  · rw [hdeed] at hcause
    obtain rfl : move = .release key := hcause
    exact keyState_cycle_of_tap h hdeed
  · -- a key pressed or held stays as it is unless its release comes after that
    have hdecided := decided_play_of_applied H ha h hdeed
    have hr : .release key ∉ more := by
      intro hm
      have hcycle : .release key ∈ Move.ofCycle edges now := by
        rw [h]
        exact List.mem_append_right _ (List.mem_cons_of_mem _ hm)
      exact hkept ⟨eq_poll_of_before_release h hcause hdeed hm,
        Move.mem_ofCycle_release.mp hcycle⟩
    have hsplit := h.trans (List.append_cons moves move more)
    have hs := Move.switch_notMem_of_ofCycle_eq hsplit (by simp)
    have hrest : Move.ofCycle edges now = (moves ++ [move]) ++ (more ++ []) := by
      rw [hsplit, List.append_nil]
    rw [hsplit, (decided_play H ha hrest hdecided hr).2 hs, play_append, play_cons, play_nil]

/-- A hold that times out in the cycle that handles the release of its key does not last. -/
theorem keyState_cycle_of_lost (H : ∀ key, (engine.keyState key).Coherent)
    (ha : engine.Awaits edges) (h : Move.ofCycle edges now = moves ++ .poll key now :: more)
    (happlied : ((engine.play moves).deed (.poll key now)).applied? = some (key, action))
    (hedge : edges[key] = some .released) :
    (engine.play (Move.ofCycle edges now)).keyState key = ⟨false, none, .idle⟩ := by
  have hcause := causedBy_deed (engine.play moves) (.poll key now)
  have hdeed := (Deed.applied?_eq_some happlied).resolve_left fun hdeed => by
    rw [hdeed] at hcause
    cases hcause
  exact released_play H ha (h.trans (List.append_cons ..))
    (decided_play_of_applied H ha h hdeed) hedge

theorem latched_make_of_applied (happlied : (engine.deed move).applied? = some (key, action)) :
    ∃ latched, action.ComesOutAs latched ∧
      (engine.make move).value.resolver.latched[key] = some latched := by
  have hstep := keyStep_make engine move key
  change ∃ latched, action.ComesOutAs latched ∧
    ((engine.make move).value.keyState key).latch = some latched
  generalize (engine.make move).value.keyState key = after at hstep
  rcases Deed.applied?_eq_some happlied with hdeed | hdeed | hdeed
  all_goals
    rw [hdeed] at hstep
    cases hstep with
    | keep hk => exact absurd rfl hk
    | _ => exact ⟨_, ‹_›, rfl⟩

/-- An applied action is reported by the cycle that applies it. Let the edges of every key alternate
in a run, and let a cycle of it apply an action on the press of a key, as its tap or as its hold.
Then what the action came out as is latched after the cycle and the cycle reports all its codes. The
one exception is a hold that times out in the cycle that handles the release of its key: after that
cycle nothing is latched for the key, and no code is reported for it. -/
theorem applied_action_is_reported (keymap : Keymap) (settings : Settings) (engine : Engine)
    (given : List (Edges × Tick)) (edges : Edges) (now : Tick) (moves more : List Move)
    (move : Move) (key : Key) (action : BasicAction)
    (h : Engine.new keymap settings = .ok engine)
    (halt : ∀ key, Edge.Alternates false (edgesOf key (given ++ [(edges, now)])))
    (hsplit : Move.ofCycle edges now = moves ++ move :: more) :
    let start := engine.run (Input.ofEdges given)
    ((start.play moves).deed move).applied? = some (key, action) →
    ∃ latched, action.ComesOutAs latched ∧
      ((start.play moves).make move).value.resolver.latched[key] = some latched ∧
      (¬(move = .poll key now ∧ edges[key] = some .released) →
        start.Sends (.edges edges now) key latched) ∧
      (move = .poll key now ∧ edges[key] = some .released → start.LetsGo (.edges edges now) key) := by
  intro start happlied
  have hnew : ∀ key, engine.keyState key = ⟨false, none, .idle⟩ := by
    obtain ⟨config, rfl⟩ := new_eq_ok h
    intro key
    simp [keyState, Resolver.new, TapHold.Machine.new]
  have hcoherent : ∀ key, (engine.keyState key).Coherent := by
    intro key
    rw [hnew key]
    exact KeyState.coherent_of_phase_idle rfl fun _ => rfl
  have halternates : ∀ key, Edge.Alternates (engine.keyState key).down
      (edgesOf key (given ++ [(edges, now)])) := by
    intro key
    rw [hnew key]
    exact halt key
  obtain ⟨H, ha⟩ := coherent_and_awaits_run hcoherent halternates
  obtain ⟨latched, hout, hlatched⟩ := latched_make_of_applied happlied
  refine ⟨latched, hout, hlatched, fun hkept => sends_of_latched ?_, fun hlost =>
    letsGo_of_latched_none ?_⟩
  · calc ((start.feed (.edges edges now)).value.1.keyState key).latch
        = ((start.play (Move.ofCycle edges now)).keyState key).latch := by
          rw [keyState_feed rfl]
          rfl
      _ = (((start.play moves).make move).value.keyState key).latch := by
          rw [keyState_cycle_of_applied H ha hsplit happlied hkept]
      _ = some latched := hlatched
  · obtain ⟨rfl, hedge⟩ := hlost
    change ((start.feed (.edges edges now)).value.1.keyState key).latch = none
    rw [keyState_feed rfl]
    exact congrArg KeyState.latch (keyState_cycle_of_lost H ha hsplit happlied hedge)

/-- A hold that times out while its key is down is reported, and one that times out in the cycle of
the release is not. -/
theorem applied_action_is_reported_deadline :
    let keymap := Keymap.empty.set 0 Layer.base 3 (.tapHold (.emit .escape) (.emit .leftCtrl))
    let settings : Settings := { tapHoldTicks := 2 }
    let given : List (Edges × Tick) := [(Edges.none.set 3 (some .pressed), 0), (Edges.none, 1)]
    let released : Edges := Edges.none.set 3 (some .released)
    ∃ engine, Engine.new keymap settings = .ok engine ∧
      (∀ key, Edge.Alternates false (edgesOf key (given ++ [(Edges.none, 2)]))) ∧
      (∀ key, Edge.Alternates false (edgesOf key (given ++ [(released, 2)]))) ∧
      (engine.run (Input.ofEdges given)).Sends (.edges Edges.none 2) 3 (.emit .leftCtrl) ∧
      (engine.run (Input.ofEdges given)).LetsGo (.edges released 2) 3 := by
  intro keymap settings given released
  obtain ⟨engine, hnew⟩ : ∃ engine, Engine.new keymap settings = .ok engine := ⟨_, rfl⟩
  have hdown : ∀ key, Edge.Alternates false (edgesOf key (given ++ [(Edges.none, 2)])) := by
    decide +kernel
  have hup : ∀ key, Edge.Alternates false (edgesOf key (given ++ [(released, 2)])) := by
    decide +kernel
  let moves : List Move := [.switch, .poll 0 2, .poll 1 2, .poll 2 2]
  have hsplit : ∀ edges, Move.ofCycle edges 2 =
      moves ++ .poll 3 2 :: (Move.ofCycle edges 2).drop 5 := fun _ => rfl
  have happlied : (((engine.run (Input.ofEdges given)).play moves).deed (.poll 3 2)).applied? =
      some (3, .emit .leftCtrl) := by
    cases hnew
    decide +kernel
  refine ⟨engine, hnew, hdown, hup, ?_, ?_⟩
  · obtain ⟨latched, rfl, -, hsends, -⟩ := applied_action_is_reported keymap settings engine given
      Edges.none 2 moves _ (.poll 3 2) 3 (.emit .leftCtrl) hnew hdown (hsplit _) happlied
    exact hsends (by decide +kernel)
  · obtain ⟨latched, -, -, -, hlost⟩ := applied_action_is_reported keymap settings engine given
      released 2 moves _ (.poll 3 2) 3 (.emit .leftCtrl) hnew hup (hsplit _) happlied
    exact hlost (by decide +kernel)

/-- A key is let go at its deadline and pressed again. Its hold was applied, and no cycle from the
first press on has reported it. -/
theorem hold_at_deadline_is_lost :
    let keymap := Keymap.empty.set 0 Layer.base 3 (.tapHold (.emit .escape) (.emit .leftCtrl))
    let given : List (Edges × Tick) := [(Edges.none.set 3 (some .pressed), 0), (Edges.none, 1),
      (Edges.none.set 3 (some .released), 2), (Edges.none, 3),
      (Edges.none.set 3 (some .pressed), 4)]
    ∃ engine, Engine.new keymap { tapHoldTicks := 2 } = .ok engine ∧
      (∀ key, Edge.Alternates false (edgesOf key given)) ∧
      ((engine.run (Input.ofEdges (given.take 2))).play
        [.switch, .poll 0 2, .poll 1 2, .poll 2 2]).deed (.poll 3 2) = .hold 3 (.emit .leftCtrl) ∧
      ∀ cycle ∈ engine.cycles (Input.ofEdges given),
        cycle.map (·.report.codes) = some [] := by
  intro keymap given
  refine ⟨_, rfl, ?_, ?_, ?_⟩ <;> decide +kernel

end Engine

end Keystroke
