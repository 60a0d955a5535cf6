import Keystroke.Proofs.Engine.Course
import Keystroke.Proofs.Engine.Doings
import Keystroke.Proofs.Engine.Layers
import Keystroke.Proofs.Engine.Order

/-!
# Config requests

A request for a config stays in one of two slots until the next cycle starts. `Engine.select` fills
the slot of the engine; an action that a move applies fills the slot of the resolver, which the end
of the cycle empties into the other. Each slot keeps what was asked for last (`request_play`,
`run_selects`). Only the first move of a cycle looks at them, so a cycle has one config throughout.
-/

namespace Keystroke

/-- The config that a deed asks for. -/
def Deed.request? (deed : Deed) : Option Config := deed.applied?.bind (·.2.config?)

namespace Engine

/-- The configs that some moves ask for, as they are made one after the other. -/
def requests (engine : Engine) (moves : List Move) : List Config :=
  (engine.moments moves).filterMap fun moment => (moment.state.deed moment.move).request?

/-- The configs that are asked for when some keys are pressed: by the holds that a press interrupts,
in key order, and then by the action of the key itself. -/
def pressRequests (engine : Engine) (now : Tick) : List Key → List Config
  | [] => []
  | key :: keys =>
    let interrupted := engine.play (Key.all.map (.interrupt · key))
    (Key.all.filterMap fun other => (engine.deed (.interrupt other key)).request?) ++
      (interrupted.deed (.press key now)).request?.toList ++
      (engine.press key now).value.pressRequests now keys

variable {engine other : Engine} {keymap : Keymap} {settings : Settings} {move : Move}
  {moves more : List Move} {edges : Edges} {now : Tick} {input : Input} {key : Key} {deed : Deed}

/-! ## The slot of the resolver -/

theorem request_carryOut (hs : ∀ config, deed ≠ .switch config) :
    (engine.carryOut deed).resolver.request = deed.request?.or engine.resolver.request := by
  cases deed with
  | wait | stay | start => rfl
  | switch config => exact absurd rfl (hs config)
  | press key action | tap key action | hold key action => exact Resolver.press_request ..
  | endTap key | endHold key | release key => exact Resolver.release_request ..

theorem request_carryOut_of_none (h : deed.request? = none)
    (hr : engine.resolver.request = none) : (engine.carryOut deed).resolver.request = none := by
  by_cases hs : ∃ config, deed = .switch config
  · obtain ⟨config, rfl⟩ := hs
    rfl
  · rw [request_carryOut fun config he => hs ⟨config, he⟩, h, hr]
    rfl

theorem requests_nil : engine.requests [] = [] := rfl

theorem requests_cons : engine.requests (move :: moves) =
    (engine.deed move).request?.toList ++ (engine.make move).value.requests moves := by
  rw [requests, moments, List.filterMap_cons]
  cases (engine.deed move).request? <;> rfl

theorem requests_append : engine.requests (moves ++ more) =
    engine.requests moves ++ (engine.play moves).requests more := by
  rw [requests, moments_append, List.filterMap_append]
  rfl

/-- The request that is made last stays. -/
theorem request_play (hs : .switch ∉ moves) : (engine.play moves).resolver.request =
    (engine.requests moves).getLast?.or engine.resolver.request := by
  induction moves generalizing engine with
  | nil => rfl
  | cons move moves ih =>
    rw [List.mem_cons, not_or] at hs
    have hstep : (engine.make move).value.resolver.request =
        (engine.deed move).request?.or engine.resolver.request := by
      rw [make_value]
      exact request_carryOut (deed_ne_switch (Ne.symm hs.1))
    rw [play_cons, ih hs.2, hstep, requests_cons, List.getLast?_append, Option.or_assoc]
    cases (engine.deed move).request? <;> rfl

/-! ## The slot of the engine -/

theorem pending_make_switch (engine : Engine) : (engine.make .switch).value.pending = none := by
  rw [make_value]
  cases h : engine.pending with
  | none => simp only [deed, h, carryOut]
  | some config =>
    simp only [deed, h]
    split <;> rfl

theorem config_make_switch (engine : Engine) :
    (engine.make .switch).value.config = engine.pending.getD engine.config := by
  rw [make_value]
  cases h : engine.pending with
  | none =>
    simp only [deed, h]
    rfl
  | some config =>
    simp only [deed, h]
    split
    · next he => exact he.symm
    · rfl

theorem pending_make (engine : Engine) (move : Move) (h : move ≠ .switch) :
    (engine.make move).value.pending = engine.pending := by
  rw [make_value]
  have hcause := causedBy_deed engine move
  generalize engine.deed move = deed at hcause
  cases deed with
  | stay | switch config => exact absurd hcause h
  | _ => rfl

theorem config_make (engine : Engine) (move : Move) (h : move ≠ .switch) :
    (engine.make move).value.config = engine.config := by
  rw [make_value]
  exact config_carryOut (deed_ne_switch h)

/-- A switch that is due is carried out at the start of the cycle. -/
theorem pending_play_ofCycle (engine : Engine) (edges : Edges) (now : Tick) :
    (engine.play (Move.ofCycle edges now)).pending = none := by
  obtain ⟨rest, hcycle, hs⟩ := Move.exists_ofCycle_eq edges now
  rw [hcycle, play_cons, play_of_no_switch pending_make hs]
  exact pending_make_switch engine

/-- From the first move of a cycle on the config is the one asked for last. -/
theorem config_play (h : Move.ofCycle edges now = moves ++ more) (hne : moves ≠ []) :
    (engine.play moves).config = engine.pending.getD engine.config := by
  cases moves with
  | nil => exact absurd rfl hne
  | cons first moves =>
    obtain ⟨rest, hcycle, hs⟩ := Move.exists_ofCycle_eq edges now
    obtain ⟨rfl, rfl⟩ := List.cons.inj (hcycle.symm.trans h)
    rw [play_cons, play_of_no_switch config_make fun hm => hs (List.mem_append_left _ hm)]
    exact config_make_switch engine

theorem run_selects (engine : Engine) (configs : List Config) :
    engine.run (configs.map .select) =
      { engine with pending := configs.getLast?.or engine.pending } := by
  induction configs using List.reverseRecOn with
  | nil => rfl
  | append_singleton configs config ih =>
    rw [List.map_append, List.map_singleton, run_concat, ih, List.getLast?_concat]
    rfl

/-! ## The order of the requests in a cycle -/

/-- Unless it looks the key up, what a move comes to depends on the state of its key and on the
rules alone. -/
theorem deed_congr (hk : move.key? = some key) (hp : move.pressed? = none)
    (hs : other.keyState key = engine.keyState key) (hr : other.rules = engine.rules) :
    other.deed move = engine.deed move := by
  have hphase : other.tapHold.phases[key] = engine.tapHold.phases[key] :=
    congrArg KeyState.phase hs
  obtain ⟨hthreshold, hpolicy⟩ := Prod.mk.inj hr
  cases move with
  | switch => cases hk
  | press => cases hp
  | poll | release | interrupt =>
    cases hk
    simp only [deed, hphase, hthreshold, hpolicy]

section
variable {f : Key → Move} {keys : List Key}

/-- Moves about one key each come to what they would come to if each of them came first. -/
theorem deed_make_of_mem (hk : ∀ key, (f key).key? = some key)
    (hp : ∀ key, (f key).pressed? = none) (hkey : key ∉ keys) :
    ∀ later ∈ keys, (engine.make (f key)).value.deed (f later) = engine.deed (f later) := by
  intro later hm
  have hswitch : f key ≠ .switch := fun he => by simpa [he, Move.key?] using hk key
  have hne : (f key).key? ≠ some later := fun he =>
    hkey (Option.some.inj ((hk key).symm.trans he) ▸ hm)
  exact deed_congr (hk later) (hp later) (keyState_make_of_ne hne hswitch)
    (rules_make engine (f key))

/-- Moves about one key each do their deeds, whichever comes first. -/
theorem play_map (hn : keys.Nodup) (hk : ∀ key, (f key).key? = some key)
    (hp : ∀ key, (f key).pressed? = none) :
    engine.play (keys.map f) = (keys.map fun key => engine.deed (f key)).foldl carryOut engine := by
  induction keys generalizing engine with
  | nil => rfl
  | cons key keys ih =>
    obtain ⟨hkey, hkeys⟩ := List.nodup_cons.mp hn
    rw [List.map_cons, play_cons, ih hkeys, List.map_cons, List.foldl_cons, ← make_value,
      List.map_congr_left (deed_make_of_mem hk hp hkey)]

/-- Moves about one key each ask for what they would ask for if each of them came first. -/
theorem requests_map (hn : keys.Nodup) (hk : ∀ key, (f key).key? = some key)
    (hp : ∀ key, (f key).pressed? = none) :
    engine.requests (keys.map f) = keys.filterMap fun key => (engine.deed (f key)).request? := by
  induction keys generalizing engine with
  | nil => rfl
  | cons key keys ih =>
    obtain ⟨hkey, hkeys⟩ := List.nodup_cons.mp hn
    have hrest := List.filterMap_congr fun later hm =>
      congrArg Deed.request? (@deed_make_of_mem engine _ _ _ hk hp hkey later hm)
    rw [List.map_cons, requests_cons, ih hkeys, hrest, List.filterMap_cons]
    cases (engine.deed (f key)).request? <;> rfl

end

theorem requests_pressesAll (keys : List Key) :
    engine.requests (keys.flatMap (Move.presses now)) = engine.pressRequests now keys := by
  induction keys generalizing engine with
  | nil => rfl
  | cons key keys ih =>
    have hinterrupts : engine.requests (Key.all.map (.interrupt · key)) =
        Key.all.filterMap fun other => (engine.deed (.interrupt other key)).request? :=
      requests_map Key.nodup_all (fun _ => rfl) fun _ => rfl
    rw [List.flatMap_cons, requests_append, ih, ← press_eq_play, Move.presses, requests_append,
      hinterrupts, requests_cons, requests_nil, List.append_nil]
    rfl

theorem request?_deed_switch : (engine.deed .switch).request? = none := by
  simp only [deed]
  split
  · rfl
  · split <;> rfl

theorem requests_ofCycle (engine : Engine) (edges : Edges) (now : Tick) :
    let opened := engine.applyPending.value
    let polled := (opened.poll now).value
    let released := (polled.releaseAll edges).value
    engine.requests (Move.ofCycle edges now) =
      (Key.all.filterMap fun key => (opened.deed (.poll key now)).request?) ++
      ((Key.all.filter fun key => edges[key] = some .released).filterMap
        fun key => (polled.deed (.release key)).request?) ++
      released.pressRequests now (Key.all.filter fun key => edges[key] = some .pressed) := by
  intro opened polled released
  have hopened : (engine.make .switch).value = opened := rfl
  have hpolls : opened.requests (Move.polls now) =
      Key.all.filterMap fun key => (opened.deed (.poll key now)).request? :=
    requests_map Key.nodup_all (fun _ => rfl) fun _ => rfl
  have hreleases : polled.requests (Move.releases edges) =
      (Key.all.filter fun key => edges[key] = some .released).filterMap
        fun key => (polled.deed (.release key)).request? :=
    requests_map (Key.nodup_all.filter _) (fun _ => rfl) fun _ => rfl
  rw [Move.ofCycle, requests_cons, request?_deed_switch, Option.toList_none, List.nil_append,
    requests_append, requests_append, play_append, hopened, hpolls, ← poll_eq_play, hreleases,
    ← releaseAll_eq_play, Move.pressesAll, requests_pressesAll]

/-! ## Runs -/

/-- Every cycle takes over what it was asked for. -/
theorem request_run (h : Engine.new keymap settings = .ok engine) (inputs : List Input) :
    (engine.run inputs).resolver.request = none := by
  induction inputs using List.reverseRecOn with
  | nil =>
    obtain ⟨config, rfl⟩ := new_eq_ok h
    rfl
  | append_singleton inputs input ih =>
    rw [run_concat]
    cases hc : (engine.run inputs).cycleOf input with
    | none =>
      obtain ⟨config, rfl⟩ := eq_select_of_cycleOf hc
      exact ih
    | some pair =>
      rw [feed_of_cycleOf hc]
      rfl

theorem config_close (engine : Engine) :
    engine.collectRequest.assemble.1.config = engine.config := rfl

theorem config_feed (hc : engine.cycleOf input = some (edges, now)) :
    (engine.feed input).value.1.config = engine.pending.getD engine.config := by
  have hplay : ((engine.started input).play (Move.ofCycle edges now)).config =
      (engine.started input).pending.getD (engine.started input).config :=
    config_play (List.append_nil _).symm (List.cons_ne_nil _ _)
  rw [feed_of_cycleOf hc, config_close, hplay, pending_started, config_started]

/-- A cycle leaves the request that its moves make last. -/
theorem pending_feed (hc : engine.cycleOf input = some (edges, now))
    (hr : engine.resolver.request = none) : (engine.feed input).value.1.pending =
      ((engine.started input).requests (Move.ofCycle edges now)).getLast? := by
  have hopened : ((engine.started input).make .switch).value.resolver.request = none := by
    rw [make_value]
    apply request_carryOut_of_none request?_deed_switch
    rwa [resolver_started]
  obtain ⟨rest, hcycle, hs⟩ := Move.exists_ofCycle_eq edges now
  have hrequest : ((engine.started input).play (Move.ofCycle edges now)).resolver.request =
      ((engine.started input).requests (Move.ofCycle edges now)).getLast? := by
    rw [hcycle, play_cons, request_play hs, hopened, Option.or_none, requests_cons,
      request?_deed_switch]
    rfl
  rw [feed_of_cycleOf hc, ← hrequest]
  change (_ <|> ((engine.started input).play (Move.ofCycle edges now)).pending) = _
  rw [pending_play_ofCycle]
  cases ((engine.started input).play (Move.ofCycle edges now)).resolver.request <;> rfl

/-- A request for the config that the engine has anyway makes no difference to a cycle. -/
theorem cycle_of_own_config (h : engine.pending = some engine.config) (edges : Edges)
    (now : Tick) : engine.cycle edges now = { engine with pending := none }.cycle edges now := by
  have happly : engine.applyPending = pure { engine with pending := none } := by
    simp only [applyPending, h, if_true]
  rw [cycle, happly]
  rfl

theorem feed_of_own_config (h : engine.pending = some engine.config) (input : Input) :
    engine.feed input = { engine with pending := none }.feed input := by
  cases input with
  | edges edges now =>
    rw [feed, cycle_of_own_config h]
    rfl
  | levels levels now =>
    have hscan : engine.scan levels now = { engine with pending := none }.scan levels now :=
      bind_congr fun (debouncer, edges) =>
        @cycle_of_own_config { engine with debouncer } h edges now
    rw [feed, hscan]
    rfl
  | select config => rfl

/-- No config switch is applied in the middle of a cycle, and the last request wins. From its first
move on a cycle looks keys up in one config, the one it ends with. What its moves ask for is in the
order of the holds that time out, the taps of the releases, and for each press the holds that it
interrupts and then its own action. The next cycle has the config selected last in between if
there is one, else the one that the cycle asked for last, else the same. A request for the config
that the engine has anyway changes nothing. -/
theorem last_request_decides_next_config (keymap : Keymap) (settings : Settings) (engine : Engine)
    (inputs : List Input) (input : Input) (edges : Edges) (now : Tick)
    (h : Engine.new keymap settings = .ok engine)
    (hc : (engine.run inputs).cycleOf input = some (edges, now)) :
    let before := engine.run inputs
    let start := before.started input
    let after := (before.feed input).value.1
    let opened := start.applyPending.value
    let polled := (opened.poll now).value
    let released := (polled.releaseAll edges).value
    let asked := start.requests (Move.ofCycle edges now)
    (∀ moves more, Move.ofCycle edges now = moves ++ more → moves ≠ [] →
      let reached := start.play moves
      reached.config = after.config ∧ ∀ key : Key,
        reached.lookup key = keymap.resolve after.config reached.resolver.layers key) ∧
    (asked = (Key.all.filterMap fun key => (opened.deed (.poll key now)).request?) ++
      ((Key.all.filter fun key => edges[key] = some .released).filterMap
        fun key => (polled.deed (.release key)).request?) ++
      released.pressRequests now (Key.all.filter fun key => edges[key] = some .pressed)) ∧
    (∀ (configs : List Config) (next : Input) (edges' : Edges) (now' : Tick),
      let idle := after.run (configs.map .select)
      idle.cycleOf next = some (edges', now') →
      (idle.feed next).value.1.config =
        (configs.getLast?.or asked.getLast?).getD after.config) ∧
    (before.pending = some before.config →
      opened = { start with pending := none } ∧
        before.feed input = { before with pending := none }.feed input) := by
  intro before start after opened polled released asked
  have hkeymap : start.keymap = keymap :=
    (keymap_started before input).trans (keymap_run h inputs)
  have hconfig : start.pending.getD start.config = after.config := by
    rw [show after.config = _ from config_feed hc, show start.pending = _ from pending_started ..,
      show start.config = _ from config_started ..]
  refine ⟨?_, requests_ofCycle start edges now, ?_, ?_⟩
  · intro moves more hsplit hne reached
    have hreached : reached.config = after.config := (config_play hsplit hne).trans hconfig
    refine ⟨hreached, fun key => ?_⟩
    rw [lookup, hreached, keymap_play, hkeymap]
  · intro configs next edges' now' idle hnext
    have hidle : idle = { after with pending := configs.getLast?.or asked.getLast? } := by
      rw [← pending_feed hc (request_run h inputs)]
      exact run_selects after configs
    rw [config_feed hnext, hidle]
  · intro hown
    have hopened : start.pending = some start.config :=
      (pending_started before input).trans
        (hown.trans (congrArg some (config_started before input).symm))
    refine ⟨?_, feed_of_own_config hown input⟩
    simp only [opened, applyPending, hopened, if_true]
    rfl

/-- A hold that times out asks for config 1, and a press in the same cycle asks for config 2. -/
theorem last_request_decides_next_config_twice :
    let keymap := (Keymap.empty.set 0 Layer.base 3 (.tapHold (.emit .a) (.configSwitch 1))).set 0
      Layer.base 5 (.basic (.configSwitch 2))
    let edges : Edges := Edges.none.set 5 (some .pressed)
    let inputs : List Input := [.edges (Edges.none.set 3 (some .pressed)) 0]
    ∃ engine after, Engine.new keymap { tapHoldTicks := 2 } = .ok engine ∧
      after = ((engine.run inputs).feed (.edges edges 2)).value.1 ∧
      ((engine.run inputs).started (.edges edges 2)).requests (Move.ofCycle edges 2) = [1, 2] ∧
      after.config = 0 ∧
      (after.feed (.edges Edges.none 3)).value.1.config = 2 ∧
      (after.run [.select 0, .select 1, .edges Edges.none 3]).config = 1 ∧
      (after.run [.select 0]).feed (.edges edges 3) =
        { after.run [.select 0] with pending := none }.feed (.edges edges 3) := by
  intro keymap edges inputs
  obtain ⟨engine, hnew⟩ : ∃ engine, Engine.new keymap { tapHoldTicks := 2 } = .ok engine :=
    ⟨_, rfl⟩
  obtain ⟨after, hafter⟩ : ∃ after, after = ((engine.run inputs).feed (.edges edges 2)).value.1 :=
    ⟨_, rfl⟩
  obtain ⟨hasked, hconfig⟩ : ((engine.run inputs).started (.edges edges 2)).requests
      (Move.ofCycle edges 2) = [1, 2] ∧ after.config = 0 := by
    cases hnew
    rw [hafter]
    decide +kernel
  have hrun : engine.run (inputs ++ [.edges edges 2] ++ [.select 0]) = after.run [.select 0] := by
    rw [run_append, run_concat, hafter]
  obtain ⟨-, -, hnext, -⟩ := last_request_decides_next_config keymap { tapHoldTicks := 2 } engine
    inputs (.edges edges 2) edges 2 hnew rfl
  obtain ⟨-, -, -, hown⟩ := last_request_decides_next_config keymap { tapHoldTicks := 2 } engine
    (inputs ++ [.edges edges 2] ++ [.select 0]) (.edges edges 3) edges 3 hnew rfl
  rw [hasked, ← hafter] at hnext
  rw [hrun] at hown
  have hpending : (after.run [.select 0]).pending = some (after.run [.select 0]).config :=
    congrArg some hconfig.symm
  exact ⟨engine, after, hnew, hafter, hasked, hconfig,
    hnext [] (.edges Edges.none 3) Edges.none 3 rfl,
    hnext [0, 1] (.edges Edges.none 3) Edges.none 3 rfl, (hown hpending).2⟩

end Engine

end Keystroke
