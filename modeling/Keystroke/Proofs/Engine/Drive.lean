import Keystroke.Proofs.Engine.Doings
import Keystroke.Proofs.Engine.Order

/-!
# An engine at consecutive ticks

A `Drive` gives an engine edges at ticks that follow one another. `Drive.account` is what happens
to a key from its press in one cycle to the polls of a later one. It is taken apart cycle by cycle
at the point where the polls are over: `Drive.opened` is the state there and `Drive.rest` are the
moves that remain, those after the press in the cycle of the press itself.
-/

namespace Keystroke

/-- An engine that is given edges at ticks that follow one another. Configs can be selected before
each cycle. -/
structure Drive where
  engine : Engine
  start : Tick
  selects : Nat → List Config
  edges : Nat → Edges

namespace Drive

open Engine

/-- The tick of a cycle. -/
def now (drive : Drive) : Nat → Tick
  | 0 => drive.start
  | cycle + 1 => drive.now cycle + 1

/-- The state that a cycle starts from. -/
def before (drive : Drive) : Nat → Engine
  | 0 => drive.engine.run ((drive.selects 0).map .select)
  | cycle + 1 => (drive.before cycle).run
      (.edges (drive.edges cycle) (drive.now cycle) :: (drive.selects (cycle + 1)).map .select)

/-- The moves of a cycle. -/
def moves (drive : Drive) (cycle : Nat) : List Move :=
  Move.ofCycle (drive.edges cycle) (drive.now cycle)

/-- The moves of a cycle up to its polls. -/
def opening (drive : Drive) (cycle : Nat) : List Move :=
  .switch :: Move.polls (drive.now cycle)

/-- The state after the polls of a cycle. -/
def polled (drive : Drive) (cycle : Nat) : Engine :=
  (drive.before cycle).play (drive.opening cycle)

/-- The state after all moves of a cycle. -/
def played (drive : Drive) (cycle : Nat) : Engine :=
  (drive.before cycle).play (drive.moves cycle)

/-- The state that the press of a key comes to. -/
def atPress (drive : Drive) (key : Key) (cycle : Nat) : Engine :=
  (drive.before cycle).play
    ((drive.moves cycle).takeWhile (· ≠ .press key (drive.now cycle)))

/-- What happens to a key in some whole cycles and in the polls of the cycle after them. -/
def doingsFrom (drive : Drive) (key : Key) (cycle : Nat) : Nat → List Doing
  | 0 => (drive.before cycle).doings key cycle (drive.opening cycle)
  | count + 1 => (drive.before cycle).doings key cycle (drive.moves cycle) ++
      drive.doingsFrom key (cycle + 1) count

/-- What happens to a key from its press in cycle `p` to the polls of cycle `p + r + 1`. -/
def account (drive : Drive) (key : Key) (p r : Nat) : List Doing :=
  (drive.atPress key p).doings key p
      ((drive.moves p).dropWhile (· ≠ .press key (drive.now p))) ++
    drive.doingsFrom key (p + 1) r

/-- A key is pressed in cycle `p` and released in cycle `p + r`, with no edge of it in between, and
no config switch is carried out in the cycles after the press. -/
structure PressedFor (drive : Drive) (key : Key) (p r : Nat) : Prop where
  pos : 0 < r
  pressed : (drive.edges p)[key] = some .pressed
  between : ∀ i, 0 < i → i < r → (drive.edges (p + i))[key] = none
  released : (drive.edges (p + r))[key] = some .released
  stays : ∀ i, 0 < i → i ≤ r + 1 → (drive.before (p + i)).deed .switch = .stay

/-- Another key is pressed in cycle `p + i` and after the press of `key` in cycle `p`. -/
structure Interrupts (drive : Drive) (key : Key) (p i : Nat) (other : Key) : Prop where
  pressed : (drive.edges (p + i))[other] = some .pressed
  ne : other ≠ key
  later : i = 0 → key < other

/-- The state after the press in cycle `p`, and after the polls of the cycles that follow it. -/
def opened (drive : Drive) (key : Key) (p : Nat) : Nat → Engine
  | 0 => ((drive.atPress key p).make (.press key (drive.now p))).value
  | i + 1 => drive.polled (p + (i + 1))

/-- The moves of cycle `p + i` that are left in the state `opened`. -/
def rest (drive : Drive) (key : Key) (p : Nat) : Nat → List Move
  | 0 => ((drive.moves p).dropWhile (· ≠ .press key (drive.now p))).tail
  | i + 1 => Move.releases (drive.edges (p + (i + 1))) ++
      Move.pressesAll (drive.edges (p + (i + 1))) (drive.now (p + (i + 1)))

/-- The part of an account that starts in the state `opened`. -/
def accountFrom (drive : Drive) (key : Key) (p i count : Nat) : List Doing :=
  (drive.opened key p i).doings key (p + i) (drive.rest key p i) ++
    drive.doingsFrom key (p + i + 1) count

variable {drive : Drive} {key other : Key} {p r i : Nat}

/-! ## From cycle to cycle -/

theorem elapsed_now (drive : Drive) (p i : Nat) :
    elapsed (drive.now (p + i)) (drive.now p) = UInt32.ofNat i := by
  induction i with
  | zero =>
    simp only [elapsed, Nat.add_zero]
    grind
  | succ i ih =>
    have hnow : drive.now (p + (i + 1)) = drive.now (p + i) + 1 := rfl
    have hnat : UInt32.ofNat (i + 1) = UInt32.ofNat i + 1 := UInt32.ofNat_add i 1
    rw [hnow, hnat, ← ih]
    simp only [elapsed]
    grind

theorem run_selects (engine : Engine) (configs : List Config) (key : Key) :
    (engine.run (configs.map .select)).keyState key = engine.keyState key ∧
      (engine.run (configs.map .select)).rules = engine.rules := by
  induction configs generalizing engine with
  | nil => exact ⟨rfl, rfl⟩
  | cons config configs ih => exact ih (engine.select config)

theorem before_succ (drive : Drive) (key : Key) (cycle : Nat) :
    (drive.before (cycle + 1)).keyState key = (drive.played cycle).keyState key ∧
      (drive.before (cycle + 1)).rules = (drive.before cycle).rules := by
  have hstep : drive.before (cycle + 1) = Engine.run
      (((drive.before cycle).play (drive.moves cycle)).collectRequest.assemble).1
      ((drive.selects (cycle + 1)).map .select) := by
    have hc : (drive.before cycle).cycleOf (.edges (drive.edges cycle) (drive.now cycle)) =
        some (drive.edges cycle, drive.now cycle) := rfl
    have hfeed := feed_of_cycleOf hc
    exact congrArg (fun fed => Engine.run fed.1 ((drive.selects (cycle + 1)).map .select)) hfeed
  have hclose : ∀ engine : Engine,
      (engine.collectRequest.assemble.1.run
        ((drive.selects (cycle + 1)).map .select)).keyState key = engine.keyState key ∧
      (engine.collectRequest.assemble.1.run
        ((drive.selects (cycle + 1)).map .select)).rules = engine.rules :=
    fun engine => run_selects engine.collectRequest.assemble.1 _ key
  obtain ⟨hstate, hrules⟩ := hclose (drive.played cycle)
  have hplayed := rules_play (drive.before cycle) (drive.moves cycle)
  rw [hstep]
  exact ⟨hstate, hrules.trans hplayed⟩

theorem rules_before (drive : Drive) (cycle : Nat) :
    (drive.before cycle).rules = drive.engine.rules := by
  induction cycle with
  | zero => exact (run_selects drive.engine (drive.selects 0) 0).2
  | succ cycle ih => rw [(before_succ drive 0 cycle).2, ih]

theorem rules_opened (drive : Drive) (key : Key) (p i : Nat) :
    (drive.opened key p i).rules = drive.engine.rules := by
  cases i with
  | zero => rw [opened, rules_make, atPress, rules_play, rules_before]
  | succ i => rw [opened, polled, rules_play, rules_before]

/-! ## The rest of a cycle -/

theorem moves_eq_opening_append (drive : Drive) (key : Key) (p i : Nat) :
    drive.moves (p + (i + 1)) = drive.opening (p + (i + 1)) ++ drive.rest key p (i + 1) := by
  rw [moves, Move.ofCycle, opening, rest, List.append_assoc, List.cons_append]

theorem dropWhile_moves (h : (drive.edges p)[key] = some .pressed) :
    (drive.moves p).dropWhile (· ≠ .press key (drive.now p)) =
      .press key (drive.now p) :: drive.rest key p 0 := by
  have hm : .press key (drive.now p) ∈ drive.moves p := Move.mem_ofCycle_press.mpr ⟨rfl, h⟩
  have hhead := List.head?_dropWhile_not (· ≠ .press key (drive.now p)) (drive.moves p)
  cases hdrop : (drive.moves p).dropWhile (· ≠ .press key (drive.now p)) with
  | nil => exact absurd (List.dropWhile_eq_nil_iff.mp hdrop _ hm) (by simp)
  | cons move moves =>
    rw [hdrop] at hhead
    have hmove : move = .press key (drive.now p) := by simpa using hhead
    rw [hmove, rest, hdrop, List.tail_cons]

theorem moves_eq_press (h : (drive.edges p)[key] = some .pressed) :
    drive.moves p = (drive.moves p).takeWhile (· ≠ .press key (drive.now p)) ++
      .press key (drive.now p) :: drive.rest key p 0 := by
  rw [← dropWhile_moves h, List.takeWhile_append_dropWhile]

namespace PressedFor

variable (H : drive.PressedFor key p r)
include H

theorem rest_suffix (i : Nat) : drive.rest key p i <:+ drive.moves (p + i) := by
  cases i with
  | zero => exact ⟨_, (List.append_cons ..).symm.trans (moves_eq_press H.pressed).symm⟩
  | succ i => exact ⟨_, (moves_eq_opening_append drive key p i).symm⟩

theorem play_rest (i : Nat) :
    (drive.opened key p i).play (drive.rest key p i) = drive.played (p + i) := by
  cases i with
  | zero =>
    rw [opened, played, Nat.add_zero, ← play_cons, atPress, ← play_append,
      ← moves_eq_press H.pressed]
  | succ i => rw [opened, played, polled, ← play_append, ← moves_eq_opening_append]

theorem two_le_stage {move : Move} (hm : move ∈ drive.rest key p i) : 2 ≤ move.stage := by
  cases i with
  | zero =>
    have hstage := Move.pairwise_stage_ofCycle (drive.edges p) (drive.now p)
    rw [show Move.ofCycle (drive.edges p) (drive.now p) = _ from moves_eq_press H.pressed,
      List.pairwise_append, List.pairwise_cons] at hstage
    have hle : 3 + key.val ≤ move.stage := hstage.2.1.1 move hm
    omega
  | succ i =>
    rcases List.mem_append.mp hm with hm | hm
    · exact (Move.stage_of_mem_releases hm).ge
    · exact (Nat.le_succ 2).trans (Move.stage_of_mem_pressesAll hm)

theorem switch_notMem_rest : .switch ∉ drive.rest key p i :=
  fun hm => absurd (H.two_le_stage hm) (by decide)

theorem poll_notMem_rest (now : Tick) : .poll other now ∉ drive.rest key p i :=
  fun hm => absurd (show 2 ≤ 1 from H.two_le_stage hm) (by decide)

theorem edgeFree_rest_zero : Move.EdgeFree key (drive.rest key p 0) := by
  have hsplit : Move.ofCycle (drive.edges p) (drive.now p) =
      _ ++ .ofEdge key (drive.now p) .pressed :: drive.rest key p 0 := moves_eq_press H.pressed
  exact (Move.split_at_edge hsplit).2.2

theorem press_notMem_rest (hi : i ≤ r) (now : Tick) : .press key now ∉ drive.rest key p i := by
  intro hm
  cases i with
  | zero => exact H.edgeFree_rest_zero.press now hm
  | succ i =>
    have hedge := (Move.mem_ofCycle_press.mp ((H.rest_suffix (i + 1)).subset hm)).2
    rcases Nat.lt_or_eq_of_le hi with hlt | rfl
    · rw [H.between (i + 1) (Nat.succ_pos i) hlt] at hedge
      cases hedge
    · rw [H.released] at hedge
      cases hedge

theorem mem_rest_release (hi : i ≤ r) : .release key ∈ drive.rest key p i ↔ i = r := by
  cases i with
  | zero => exact iff_of_false H.edgeFree_rest_zero.release H.pos.ne
  | succ i =>
    constructor
    · intro hm
      have hedge := Move.mem_ofCycle_release.mp ((H.rest_suffix (i + 1)).subset hm)
      rcases Nat.lt_or_eq_of_le hi with hlt | he
      · rw [H.between (i + 1) (Nat.succ_pos i) hlt] at hedge
        cases hedge
      · exact he
    · rintro rfl
      refine List.mem_append_left _ (List.mem_map_of_mem ?_)
      exact List.mem_filter.mpr ⟨Key.mem_all key, decide_eq_true H.released⟩

theorem mem_rest_interrupt :
    (.interrupt key other ∈ drive.rest key p i ∧ other ≠ key) ↔
      drive.Interrupts key p i other := by
  cases i with
  | zero =>
    have hstage := Move.pairwise_stage_ofCycle (drive.edges p) (drive.now p)
    have hmoves : Move.ofCycle (drive.edges p) (drive.now p) = _ := moves_eq_press H.pressed
    rw [hmoves, List.pairwise_append, List.pairwise_cons] at hstage
    constructor
    · rintro ⟨hm, hne⟩
      have hedge := Move.mem_ofCycle_interrupt.mp ((H.rest_suffix 0).subset hm)
      have hle : 3 + key.val ≤ 3 + other.val := hstage.2.1.1 _ hm
      exact ⟨hedge, hne, fun _ => lt_of_le_of_ne (Nat.le_of_add_le_add_left hle) hne.symm⟩
    · rintro ⟨hedge, hne, hlater⟩
      refine ⟨?_, hne⟩
      have hm : .interrupt key other ∈ Move.ofCycle (drive.edges p) (drive.now p) :=
        Move.mem_ofCycle_interrupt.mpr hedge
      rw [hmoves] at hm
      rcases List.mem_append.mp hm with hm | hm
      · have hle : 3 + other.val ≤ 3 + key.val := hstage.2.2 _ hm _ List.mem_cons_self
        have hlt : key.val < other.val := hlater rfl
        omega
      · rcases List.mem_cons.mp hm with hm | hm
        · cases hm
        · exact hm
  | succ i =>
    constructor
    · rintro ⟨hm, hne⟩
      exact ⟨Move.mem_ofCycle_interrupt.mp ((H.rest_suffix (i + 1)).subset hm), hne, nofun⟩
    · rintro ⟨hedge, hne, -⟩
      refine ⟨List.mem_append_right _ (List.mem_flatMap.mpr ⟨other, ?_, ?_⟩), hne⟩
      · exact List.mem_filter.mpr ⟨Key.mem_all other, decide_eq_true hedge⟩
      · exact List.mem_append_left _ (List.mem_map_of_mem (Key.mem_all key))

theorem pairwise_stage_rest (i : Nat) : (drive.rest key p i).Pairwise (·.stage ≤ ·.stage) :=
  (Move.pairwise_stage_ofCycle _ _).sublist (H.rest_suffix i).sublist

theorem nodup_rest (i : Nat) : (drive.rest key p i).Nodup :=
  (Move.nodup_ofCycle _ _).sublist (H.rest_suffix i).sublist

end PressedFor

/-! ## Accounts -/

theorem account_eq (h : (drive.edges p)[key] = some .pressed) :
    drive.account key p r = ⟨p, drive.atPress key p, .press key (drive.now p)⟩ ::
      drive.accountFrom key p 0 r := by
  rw [account, dropWhile_moves h, doings_cons_of_answers (answers_press.mpr rfl), List.cons_append]
  rfl

theorem accountFrom_zero (drive : Drive) (key : Key) (p i : Nat) :
    drive.accountFrom key p i 0 =
      (drive.opened key p i).doings key (p + i) (drive.rest key p i) ++
        (drive.before (p + i + 1)).doings key (p + i + 1) (drive.opening (p + i + 1)) := rfl

theorem accountFrom_succ (drive : Drive) (key : Key) (p i count : Nat) :
    drive.accountFrom key p i (count + 1) =
      (drive.opened key p i).doings key (p + i) (drive.rest key p i) ++
        ((drive.before (p + i + 1)).doings key (p + i + 1) (drive.opening (p + i + 1)) ++
          drive.accountFrom key p (i + 1) count) := by
  have hmoves := moves_eq_opening_append drive key p i
  rw [accountFrom, doingsFrom, show p + i + 1 = p + (i + 1) from rfl, hmoves, doings_append,
    List.append_assoc]
  rfl

end Drive

end Keystroke
