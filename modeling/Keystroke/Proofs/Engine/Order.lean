import Keystroke.Proofs.Engine.Moves

/-!
# The order of the moves in a cycle

A cycle polls every key before it handles an edge and handles all releases before any press
(`pairwise_stage_ofCycle`), and it makes no move twice (`nodup_ofCycle`). So the poll of a key comes
before its edge, and that edge is the only one of its key (`split_at_edge`); the interruptions by a
press come right before it (`split_at_press`).
-/

namespace Keystroke

namespace Move

/-- The move that handles an edge. -/
def ofEdge (key : Key) (now : Tick) : Edge → Move
  | .pressed => press key now
  | .released => release key

/-- The stage of a cycle that a move belongs to; each press has a stage of its own. -/
def stage : Move → Nat
  | switch => 0
  | poll .. => 1
  | release _ => 2
  | interrupt _ presser => 3 + presser.val
  | press key _ => 3 + key.val

variable {key : Key} {edge : Edge} {edges : Edges} {now at' : Tick} {move : Move}

/-! ## The moves of a cycle -/

theorem mem_polls (key : Key) (now : Tick) : poll key now ∈ polls now :=
  List.mem_map_of_mem (Key.mem_all key)

theorem mem_ofCycle_poll (edges : Edges) (key : Key) (now : Tick) :
    poll key now ∈ ofCycle edges now :=
  List.mem_cons_of_mem _ (List.mem_append_left _ (List.mem_append_left _ (mem_polls key now)))

theorem mem_ofCycle_release : release key ∈ ofCycle edges now ↔ edges[key] = some .released := by
  simp [ofCycle, polls, releases, pressesAll, presses]

theorem mem_ofCycle_press :
    press key at' ∈ ofCycle edges now ↔ at' = now ∧ edges[key] = some .pressed := by
  simp only [ofCycle, polls, releases, pressesAll, presses, List.mem_cons, List.mem_append,
    List.mem_map, List.mem_flatMap, List.mem_filter, Key.mem_all, true_and, reduceCtorEq,
    and_false, exists_false, false_or, List.not_mem_nil, or_false, decide_eq_true_eq,
    press.injEq]
  constructor
  · rintro ⟨presser, hedge, rfl, hn⟩
    exact ⟨hn, hedge⟩
  · rintro ⟨hn, hedge⟩
    exact ⟨key, hedge, rfl, hn⟩

theorem mem_ofCycle_interrupt {presser : Key} :
    interrupt key presser ∈ ofCycle edges now ↔ edges[presser] = some .pressed := by
  simp [ofCycle, polls, releases, pressesAll, presses]

theorem mem_ofCycle_ofEdge : ofEdge key now edge ∈ ofCycle edges now ↔ edges[key] = some edge := by
  cases edge with
  | pressed => exact mem_ofCycle_press.trans (and_iff_right rfl)
  | released => exact mem_ofCycle_release

theorem ofCycle_none (now : Tick) : ofCycle Edges.none now = switch :: polls now := by
  simp [ofCycle, releases, pressesAll, Edges.none]

/-! ## Stages -/

theorem stage_of_mem_polls (h : move ∈ polls now) : move.stage = 1 := by
  obtain ⟨key, -, rfl⟩ := List.mem_map.mp h
  rfl

theorem stage_of_mem_releases (h : move ∈ releases edges) : move.stage = 2 := by
  obtain ⟨key, -, rfl⟩ := List.mem_map.mp h
  rfl

theorem stage_of_mem_presses {presser : Key} (h : move ∈ presses now presser) :
    move.stage = 3 + presser.val := by
  rcases List.mem_append.mp h with h | h
  · obtain ⟨key, -, rfl⟩ := List.mem_map.mp h
    rfl
  · obtain rfl := List.mem_singleton.mp h
    rfl

theorem stage_of_mem_pressesAll (h : move ∈ pressesAll edges now) : 3 ≤ move.stage := by
  obtain ⟨presser, -, h⟩ := List.mem_flatMap.mp h
  rw [stage_of_mem_presses h]
  exact Nat.le_add_right 3 presser.val

theorem pairwise_stage_of_const {l : List Move} {n : Nat} (h : ∀ move ∈ l, move.stage = n) :
    l.Pairwise (·.stage ≤ ·.stage) :=
  List.pairwise_of_forall_mem_list fun a ha b hb => by rw [h a ha, h b hb]

theorem pairwise_stage_pressesAll (edges : Edges) (now : Tick) :
    (pressesAll edges now).Pairwise (·.stage ≤ ·.stage) := by
  refine List.pairwise_flatMap.mpr
    ⟨fun presser _ => pairwise_stage_of_const fun _ => stage_of_mem_presses, ?_⟩
  refine ((List.pairwise_lt_finRange keyCount).filter _).imp fun hlt a ha b hb => ?_
  rw [stage_of_mem_presses ha, stage_of_mem_presses hb]
  exact Nat.add_le_add_left (Nat.le_of_lt hlt) 3

/-- The stages of a cycle follow one another. -/
theorem pairwise_stage_ofCycle (edges : Edges) (now : Tick) :
    (ofCycle edges now).Pairwise (·.stage ≤ ·.stage) := by
  rw [ofCycle, List.pairwise_cons, List.pairwise_append, List.pairwise_append]
  refine ⟨fun _ _ => Nat.zero_le _,
    ⟨pairwise_stage_of_const fun _ => stage_of_mem_polls,
      pairwise_stage_of_const fun _ => stage_of_mem_releases, fun a ha b hb => ?_⟩,
    pairwise_stage_pressesAll edges now, fun a ha b hb => ?_⟩
  · rw [stage_of_mem_polls ha, stage_of_mem_releases hb]
    decide
  · refine Nat.le_trans ?_ (stage_of_mem_pressesAll hb)
    rcases List.mem_append.mp ha with ha | ha
    · rw [stage_of_mem_polls ha]
      decide
    · rw [stage_of_mem_releases ha]
      decide

/-! ## No move is made twice -/

theorem nodup_presses (now : Tick) (presser : Key) : (presses now presser).Nodup := by
  refine List.nodup_append.mpr ⟨Key.nodup_all.map ?_, List.nodup_singleton _, ?_⟩
  · intro a b h
    cases h
    rfl
  · intro a ha b hb
    obtain ⟨key, -, rfl⟩ := List.mem_map.mp ha
    obtain rfl := List.mem_singleton.mp hb
    nofun

theorem nodup_pressesAll (edges : Edges) (now : Tick) : (pressesAll edges now).Nodup := by
  refine List.nodup_flatMap.mpr ⟨fun presser _ => nodup_presses now presser, ?_⟩
  refine (Key.nodup_all.filter _).imp fun hne move hm hm' => hne (Fin.ext ?_)
  have h := (stage_of_mem_presses hm).symm.trans (stage_of_mem_presses hm')
  omega

theorem disjoint_of_stage {l l' : List Move} {n : Nat} (h : ∀ move ∈ l, move.stage ≤ n)
    (h' : ∀ move ∈ l', n < move.stage) : List.Disjoint l l' :=
  fun move hm hm' => Nat.not_lt_of_le (h move hm) (h' move hm')

theorem nodup_ofCycle (edges : Edges) (now : Tick) : (ofCycle edges now).Nodup := by
  have hpolls : (polls now).Nodup := Key.nodup_all.map fun a b h => (poll.inj h).1
  have hreleases : (releases edges).Nodup :=
    (Key.nodup_all.filter _).map fun a b h => release.inj h
  have hfirst : ∀ move ∈ polls now, move.stage ≤ 1 := fun _ hm => (stage_of_mem_polls hm).le
  have hsecond : ∀ move ∈ polls now ++ releases edges, move.stage ≤ 2 := by
    intro move hm
    rcases List.mem_append.mp hm with hm | hm
    · exact (hfirst move hm).trans (by decide)
    · exact (stage_of_mem_releases hm).le
  have hrest : (polls now ++ releases edges ++ pressesAll edges now).Nodup := by
    refine (hpolls.append hreleases ?_).append (nodup_pressesAll edges now) ?_
    · exact disjoint_of_stage hfirst fun _ hm => by rw [stage_of_mem_releases hm]; decide
    · exact disjoint_of_stage hsecond fun _ hm => stage_of_mem_pressesAll hm
  refine List.nodup_cons.mpr ⟨fun hm => ?_, hrest⟩
  rcases List.mem_append.mp hm with hm | hm
  · rcases List.mem_append.mp hm with hm | hm
    · cases stage_of_mem_polls hm
    · cases stage_of_mem_releases hm
  · exact absurd (stage_of_mem_pressesAll hm) (by decide)

/-- Only the first move of a cycle is a switch. -/
theorem switch_notMem_of_ofCycle_eq {moves more : List Move}
    (h : ofCycle edges now = moves ++ more) (hne : moves ≠ []) : switch ∉ more := by
  have hnodup := nodup_ofCycle edges now
  cases moves with
  | nil => exact absurd rfl hne
  | cons first moves =>
    have hfirst : first = switch := (List.cons.inj h).1.symm
    rw [h, hfirst, List.cons_append, List.nodup_cons] at hnodup
    exact fun hm => hnodup.1 (List.mem_append_right _ hm)

theorem exists_ofCycle_eq (edges : Edges) (now : Tick) :
    ∃ rest, ofCycle edges now = switch :: rest ∧ switch ∉ rest := by
  obtain ⟨rest, hcycle⟩ : ∃ rest, ofCycle edges now = [switch] ++ rest := ⟨_, rfl⟩
  exact ⟨rest, hcycle, switch_notMem_of_ofCycle_eq hcycle (List.cons_ne_nil _ _)⟩

theorem mem_of_stage_lt {other : Move} {moves more : List Move}
    (h : ofCycle edges now = moves ++ move :: more) (hm : other ∈ ofCycle edges now)
    (hlt : other.stage < move.stage) : other ∈ moves := by
  have hstage := pairwise_stage_ofCycle edges now
  rw [h, List.pairwise_append, List.pairwise_cons] at hstage
  rw [h] at hm
  rcases List.mem_append.mp hm with hm | hm
  · exact hm
  · rcases List.mem_cons.mp hm with rfl | hm
    · exact absurd hlt (Nat.lt_irrefl _)
    · exact absurd (hstage.2.1.1 other hm) (Nat.not_le_of_lt hlt)

theorem notMem_of_stage_lt {other : Move} {moves more : List Move}
    (h : ofCycle edges now = moves ++ move :: more) (hlt : move.stage < other.stage) :
    other ∉ moves := by
  have hstage := pairwise_stage_ofCycle edges now
  rw [h, List.pairwise_append] at hstage
  exact fun hm => absurd (hstage.2.2 other hm move List.mem_cons_self) (Nat.not_le_of_lt hlt)

/-! ## Edges -/

/-- Some moves of a cycle handle no edge of a key unless they handle the one that it has. -/
theorem edgeFree_of_notMem {moves : List Move} (hsub : moves ⊆ ofCycle edges now)
    (hm : ∀ edge, edges[key] = some edge → ofEdge key now edge ∉ moves) : EdgeFree key moves where
  press at' hp := by
    obtain ⟨rfl, hedge⟩ := mem_ofCycle_press.mp (hsub hp)
    exact hm .pressed hedge hp
  release hr := hm .released (mem_ofCycle_release.mp (hsub hr)) hr

theorem edgeFree_ofCycle (h : edges[key] = none) : EdgeFree key (ofCycle edges now) :=
  edgeFree_of_notMem (List.Subset.refl _) fun edge hedge => by rw [h] at hedge; cases hedge

theorem one_lt_stage_ofEdge (key : Key) (now : Tick) (edge : Edge) :
    1 < (ofEdge key now edge).stage := by
  cases edge with
  | pressed => exact Nat.lt_of_lt_of_le (by decide) (Nat.le_add_right 3 key.val)
  | released => exact Nat.lt_succ_self 1

/-- Before the move that handles an edge its key is polled, and no other move of the cycle handles
an edge of that key. -/
theorem split_at_edge {moves more : List Move}
    (h : ofCycle edges now = moves ++ ofEdge key now edge :: more) :
    poll key now ∈ moves ∧ EdgeFree key moves ∧ EdgeFree key more := by
  have hnodup := nodup_ofCycle edges now
  rw [h, List.nodup_middle, List.nodup_cons, List.mem_append, not_or] at hnodup
  have hedge : edges[key] = some edge := by
    rw [← @mem_ofCycle_ofEdge key edge edges now, h]
    exact List.mem_append_right _ List.mem_cons_self
  have hfree : ∀ l, l ⊆ ofCycle edges now → ofEdge key now edge ∉ l → EdgeFree key l := by
    intro l hsub hnot
    refine edgeFree_of_notMem hsub fun other hother => ?_
    obtain rfl := Option.some.inj (hedge.symm.trans hother)
    exact hnot
  refine ⟨mem_of_stage_lt h (mem_ofCycle_poll edges key now) (one_lt_stage_ofEdge key now edge),
    hfree moves ?_ hnodup.1.1, hfree more ?_ hnodup.1.2⟩
  · exact h ▸ List.subset_append_left _ _
  · exact h ▸ fun _ hm => List.mem_append_right _ (List.mem_cons_of_mem _ hm)

/-- Right before a press every key is interrupted by it. -/
theorem split_at_press {moves more : List Move}
    (h : ofCycle edges now = moves ++ press key at' :: more) :
    ∃ earlier, moves = earlier ++ Key.all.map (interrupt · key) := by
  have hm : press key at' ∈ ofCycle edges now := by simp [h]
  obtain ⟨rfl, hedge⟩ := mem_ofCycle_press.mp hm
  obtain ⟨lower, upper, hkeys⟩ := List.append_of_mem
    (List.mem_filter.mpr ⟨Key.mem_all key, decide_eq_true hedge⟩ :
      key ∈ Key.all.filter fun key => edges[key] = some .pressed)
  have hsplit : ofCycle edges at' =
      (switch :: (polls at' ++ releases edges ++ lower.flatMap (presses at')) ++
        Key.all.map (interrupt · key)) ++ press key at' :: upper.flatMap (presses at') := by
    rw [ofCycle, pressesAll, hkeys]
    simp [presses]
  have hnodup := nodup_ofCycle edges at'
  rw [h, List.nodup_middle, List.nodup_cons, List.mem_append, not_or] at hnodup
  have heq := (List.append_cons_inj_of_notMem hnodup.1.1 hnodup.1.2).mp (h.symm.trans hsplit)
  exact ⟨_, heq.1⟩

/-- A list of moves split at the one that comes first among those with a property. -/
theorem split_at_first {moves : List Move} {P : Move → Prop}
    (hstage : moves.Pairwise (·.stage ≤ ·.stage)) (hnodup : moves.Nodup) (hm : move ∈ moves)
    (hfirst : ∀ other ∈ moves, P other → other ≠ move → move.stage < other.stage) :
    ∃ before after, moves = before ++ move :: after ∧ (∀ other ∈ before, ¬P other) ∧
      move ∉ after := by
  obtain ⟨before, after, rfl⟩ := List.append_of_mem hm
  rw [List.nodup_middle, List.nodup_cons, List.mem_append, not_or] at hnodup
  obtain ⟨⟨hbefore, hafter⟩, -⟩ := hnodup
  refine ⟨before, after, rfl, fun other ho hP => ?_, hafter⟩
  have hlt := hfirst other (List.mem_append_left _ ho) hP fun he => hbefore (he ▸ ho)
  have hle := (List.pairwise_append.mp hstage).2.2 other ho move List.mem_cons_self
  exact Nat.not_lt_of_le hle hlt

end Move

end Keystroke
