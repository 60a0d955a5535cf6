import Keystroke.Proofs.Engine.Drive

/-!
# Tap or hold

A tap-hold key that is pressed in cycle `p` and released in cycle `p + r` pends until the first of
three things happens: a poll finds that the threshold has passed, another key is pressed under the
policy that minds it, or the key is released. The cycles are gone through one by one from the press
on (`decided`); what follows a hold is the same however it was decided
(`holdsUntilRelease_of_held`).
-/

namespace Keystroke

namespace Drive

open Engine

/-- The number of cycles after which the poll holds a key that still pends. -/
def limit (drive : Drive) : Nat := max drive.engine.tapHold.threshold.toNat 1

/-- No key press has interrupted a key before cycle `p + i`, or the policy does not mind. -/
def Uninterrupted (drive : Drive) (key : Key) (p i : Nat) : Prop :=
  drive.engine.tapHold.policy = .holdOnOtherKeyPress →
    ∀ j < i, ∀ other, ¬drive.Interrupts key p j other

/-- The move of cycle `p + i` that decides for the hold of a key pressed in cycle `p`: the poll that
finds the threshold passed, or the first interruption before that. -/
inductive Decides (drive : Drive) (key : Key) (p r i : Nat) : Move → Prop where
  | timeout : i = drive.limit → i ≤ r → drive.Uninterrupted key p i →
      Decides drive key p r i (.poll key (drive.now (p + i)))
  | interruption {other : Key} : drive.engine.tapHold.policy = .holdOnOtherKeyPress →
      i < drive.limit → i < r → drive.Uninterrupted key p i → drive.Interrupts key p i other →
      (∀ another, drive.Interrupts key p i another → other ≤ another) →
      Decides drive key p r i (.interrupt key other)

/-- The release in cycle `p + r` applies the tap, the next poll ends it, and nothing else is done
about the key. -/
def EndsTapped (drive : Drive) (key : Key) (p r : Nat) (tap : BasicAction)
    (account : List Doing) : Prop :=
  ∃ atRelease atPoll : Engine,
    account = [⟨p + r, atRelease, .release key⟩,
      ⟨p + r + 1, atPoll, .poll key (drive.now (p + r + 1))⟩] ∧
    atRelease.deed (.release key) = .tap key tap ∧
    atPoll.deed (.poll key (drive.now (p + r + 1))) = .endTap key ∧
    (drive.played (p + r)).keyState key =
      ⟨false, some ((atRelease.resolver.mark key false).outcome tap), .tapped tap⟩ ∧
    (drive.polled (p + r + 1)).keyState key = ⟨false, none, .idle⟩

/-- From cycle `p + i` on the hold is latched, until the release in cycle `p + r` undoes it, and
nothing else is done about the key. -/
def HoldsUntilRelease (drive : Drive) (key : Key) (p r : Nat) (hold latched : BasicAction) (i : Nat)
    (account : List Doing) : Prop :=
  ∃ atRelease : Engine,
    account = [⟨p + r, atRelease, .release key⟩] ∧
    atRelease.deed (.release key) = .endHold key ∧
    (∀ j, i ≤ j → j < r →
      (drive.played (p + j)).keyState key = ⟨true, some latched, .held hold⟩) ∧
    atRelease.keyState key = ⟨true, some latched, .held hold⟩ ∧
    (drive.played (p + r)).keyState key = ⟨false, none, .idle⟩

variable {drive : Drive} {key other : Key} {p r i : Nat} {tap hold latched : BasicAction}

theorem HoldsUntilRelease.of_succ {account : List Doing}
    (h : drive.HoldsUntilRelease key p r hold latched (i + 1) account)
    (hplayed : (drive.played (p + i)).keyState key = ⟨true, some latched, .held hold⟩) :
    drive.HoldsUntilRelease key p r hold latched i account := by
  obtain ⟨atRelease, haccount, hdeed, hlater, hreleased⟩ := h
  refine ⟨atRelease, haccount, hdeed, fun j hj hjr => ?_, hreleased⟩
  rcases Nat.eq_or_lt_of_le hj with rfl | hj
  · exact hplayed
  · exact hlater j hj hjr

theorem Uninterrupted.succ (h : drive.Uninterrupted key p i)
    (hi : drive.engine.tapHold.policy = .holdOnOtherKeyPress →
      ∀ other, ¬drive.Interrupts key p i other) : drive.Uninterrupted key p (i + 1) := by
  intro hpolicy j hj other
  rcases Nat.lt_succ_iff_lt_or_eq.mp hj with hj | rfl
  · exact h hpolicy j hj other
  · exact hi hpolicy other

/-! ## The opening of a cycle -/

theorem polled_eq (drive : Drive) (cycle : Nat) : drive.polled cycle =
    ((drive.before cycle).make .switch).value.play (Move.polls (drive.now cycle)) := by
  rw [polled, opening, play_cons]

/-- The opening of a cycle, for a key that does not answer to its poll. -/
theorem opening_of_not_answers {cycle : Nat} (hstay : (drive.before cycle).deed .switch = .stay)
    (h : ¬(drive.before cycle).Answers key (.poll key (drive.now cycle))) :
    (drive.polled cycle).keyState key = (drive.before cycle).keyState key ∧
      (drive.before cycle).doings key cycle (drive.opening cycle) = [] := by
  obtain ⟨hswitch, hdoings⟩ :=
    doings_switch_cons hstay key cycle (Move.polls (drive.now cycle))
  have hnot := fun ha => h ((answers_congr hswitch (rules_make (drive.before cycle) .switch)).mp ha)
  obtain ⟨hplay, hrest⟩ := polls_of_not_answers hnot
  rw [polled_eq, opening, hdoings, hplay, hswitch]
  exact ⟨rfl, hrest⟩

/-- The opening of a cycle, for a key that answers to its poll. -/
theorem opening_of_answers {cycle : Nat} (hstay : (drive.before cycle).deed .switch = .stay)
    (h : (drive.before cycle).Answers key (.poll key (drive.now cycle))) :
    ∃ atPoll : Engine, atPoll.keyState key = (drive.before cycle).keyState key ∧
      atPoll.rules = drive.engine.rules ∧
      (drive.before cycle).doings key cycle (drive.opening cycle) =
        [⟨cycle, atPoll, .poll key (drive.now cycle)⟩] ∧
      (drive.polled cycle).keyState key =
        (atPoll.make (.poll key (drive.now cycle))).value.keyState key := by
  obtain ⟨hswitch, hdoings⟩ :=
    doings_switch_cons hstay key cycle (Move.polls (drive.now cycle))
  have hrules := (rules_make (drive.before cycle) .switch).trans (rules_before drive cycle)
  have hanswer := (answers_congr hswitch (rules_make (drive.before cycle) .switch)).mpr h
  rw [opening, hdoings, polled_eq, ← hswitch, ← hrules]
  exact polls_of_answers hanswer

/-- A poll finds the threshold passed exactly when the limit is reached, although ticks wrap. -/
theorem due_iff (drive : Drive) (p : Nat) (hi : i + 1 ≤ drive.limit) :
    (drive.before (p + i + 1)).tapHold.threshold ≤
      elapsed (drive.now (p + i + 1)) (drive.now p) ↔ i + 1 = drive.limit := by
  have hthreshold := (Prod.mk.inj (rules_before drive (p + i + 1))).1
  rw [hthreshold, Nat.add_assoc, elapsed_now, UInt32.le_iff_toNat_le, UInt32.toNat_ofNat']
  have hlt := drive.engine.tapHold.threshold.toNat_lt
  unfold limit at *
  omega

/-! ## The rest of a cycle -/

namespace PressedFor

variable (H : drive.PressedFor key p r)
include H

/-- After the polls a key answers to its release, and while it pends to interruptions. -/
theorem answers_rest (hi : i ≤ r) {engine : Engine} {move : Move}
    (hm : move ∈ drive.rest key p i) (ha : engine.Answers key move) :
    (move = .release key ∧ i = r) ∨
      ∃ other, move = .interrupt key other ∧ drive.Interrupts key p i other ∧
        engine.tapHold.policy = .holdOnOtherKeyPress ∧
        ∃ since tap hold, (engine.keyState key).phase = .pending since tap hold := by
  cases move with
  | switch => exact absurd hm H.switch_notMem_rest
  | poll other now => exact absurd hm (H.poll_notMem_rest now)
  | release other =>
    obtain rfl := answers_release.mp ha
    exact .inl ⟨rfl, (H.mem_rest_release hi).mp hm⟩
  | interrupt other presser =>
    obtain ⟨rfl, hne, hpolicy, hphase⟩ := answers_interrupt.mp ha
    exact .inr ⟨presser, rfl, H.mem_rest_interrupt.mp ⟨hm, hne.symm⟩, hpolicy, hphase⟩
  | press other now =>
    obtain rfl := answers_press.mp ha
    exact absurd hm (H.press_notMem_rest hi now)

/-- Before its release nothing happens to a key that does not pend or is not interrupted. -/
theorem rest_of_not_answers (hi : i < r)
    (h : (∀ since tap hold, ((drive.opened key p i).keyState key).phase ≠ .pending since tap hold) ∨
      (drive.engine.tapHold.policy = .holdOnOtherKeyPress →
        ∀ other, ¬drive.Interrupts key p i other)) :
    (drive.played (p + i)).keyState key = (drive.opened key p i).keyState key ∧
      (drive.opened key p i).doings key (p + i) (drive.rest key p i) = [] := by
  rw [← H.play_rest i]
  refine play_of_not_answers (fun move hm ha => ?_) H.switch_notMem_rest
  rcases H.answers_rest hi.le hm ha with ⟨-, he⟩ | ⟨other, -, hinterrupts, hpolicy, hphase⟩
  · exact hi.ne he
  · obtain ⟨since, tap, hold, hphase⟩ := hphase
    rcases h with h | h
    · exact h since tap hold hphase
    · rw [(Prod.mk.inj (rules_opened drive key p i)).2] at hpolicy
      exact h hpolicy other hinterrupts

/-- The first move that a key answers to decides what becomes of it in the cycle, unless it answers
to a later one as well. -/
theorem rest_of_first {move : Move} (hm : move ∈ drive.rest key p i)
    (ha : (drive.opened key p i).Answers key move)
    (hfirst : ∀ other ∈ drive.rest key p i, (drive.opened key p i).Answers key other →
      other ≠ move → move.stage < other.stage)
    (hafter : ∀ reached : Engine, reached.keyState key = (drive.opened key p i).keyState key →
      reached.rules = drive.engine.rules → ∀ later ∈ drive.rest key p i, later ≠ move →
        ¬(reached.make move).value.Answers key later) :
    ∃ reached : Engine, reached.keyState key = (drive.opened key p i).keyState key ∧
      reached.rules = drive.engine.rules ∧
      (drive.opened key p i).doings key (p + i) (drive.rest key p i) = [⟨p + i, reached, move⟩] ∧
      (drive.played (p + i)).keyState key = (reached.make move).value.keyState key := by
  obtain ⟨moves, more, hsplit, hbefore, hmore⟩ :=
    Move.split_at_first (H.pairwise_stage_rest i) (H.nodup_rest i) hm hfirst
  have hswitch : .switch ∉ drive.rest key p i := H.switch_notMem_rest
  rw [← H.play_rest i, ← rules_opened drive key p i]
  rw [← rules_opened drive key p i] at hafter
  rw [hsplit] at hswitch hafter ⊢
  refine doings_singleton hbefore (fun hs => hswitch ?_) ha
    fun reached hstate hrules later hl => ?_
  · exact ((List.sublist_cons_self move more).append_left moves).subset hs
  · refine hafter reached hstate hrules later ?_ fun he => hmore (he ▸ hl)
    exact List.mem_append_right _ (List.mem_cons_of_mem _ hl)

/-- The first interruption of a pending key holds it for the rest of the cycle. -/
theorem rest_of_interrupts {since : Tick} (hi : i < r)
    (hphase : ((drive.opened key p i).keyState key).phase = .pending since tap hold)
    (hpolicy : drive.engine.tapHold.policy = .holdOnOtherKeyPress)
    (hinterrupts : drive.Interrupts key p i other)
    (hfirst : ∀ another, drive.Interrupts key p i another → other ≤ another) :
    ∃ atHold : Engine,
      atHold.keyState key = (drive.opened key p i).keyState key ∧
      atHold.deed (.interrupt key other) = .hold key hold ∧
      (drive.opened key p i).doings key (p + i) (drive.rest key p i) =
        [⟨p + i, atHold, .interrupt key other⟩] ∧
      (drive.played (p + i)).keyState key =
        (atHold.carryOut (.hold key hold)).keyState key := by
  have hdeed : ∀ reached : Engine,
      reached.keyState key = (drive.opened key p i).keyState key →
      reached.rules = drive.engine.rules →
      reached.deed (.interrupt key other) = .hold key hold := by
    intro reached hstate hrules
    refine deed_interrupt_of_pending (hstate ▸ hphase) ?_ hinterrupts.ne.symm
    exact (Prod.mk.inj hrules).2.trans hpolicy
  have hopened := hdeed _ rfl (rules_opened drive key p i)
  have hbefore : ∀ move ∈ drive.rest key p i, (drive.opened key p i).Answers key move →
      move ≠ .interrupt key other → Move.stage (.interrupt key other) < move.stage := by
    intro move hm ha hne
    rcases H.answers_rest hi.le hm ha with ⟨-, he⟩ | ⟨another, rfl, hanother, -, -⟩
    · exact absurd he hi.ne
    · have hlt : other < another :=
        lt_of_le_of_ne (hfirst another hanother) fun he => hne (he ▸ rfl)
      exact Nat.add_lt_add_left hlt 3
  have hafter : ∀ reached : Engine,
      reached.keyState key = (drive.opened key p i).keyState key →
      reached.rules = drive.engine.rules → ∀ later ∈ drive.rest key p i,
        later ≠ .interrupt key other →
          ¬(reached.make (.interrupt key other)).value.Answers key later := by
    -- the key is held from now on, and its release comes in a later cycle
    intro reached hstate hrules later hm hne ha
    rcases H.answers_rest hi.le hm ha with ⟨-, he⟩ | ⟨_, -, -, -, _, _, _, hpending⟩
    · exact hi.ne he
    · rw [make_value, hdeed reached hstate hrules, keyState_hold] at hpending
      cases hpending
  obtain ⟨atHold, hstate, hrules, hdoings, hplayed⟩ := H.rest_of_first
    (H.mem_rest_interrupt.mpr hinterrupts).1 (congrArg Deed.key? hopened) hbefore hafter
  refine ⟨atHold, hstate, hdeed atHold hstate hrules, hdoings, ?_⟩
  rw [hplayed, make_value, hdeed atHold hstate hrules]

/-- The release of a key decides what becomes of it in that cycle. -/
theorem rest_of_released :
    ∃ atRelease : Engine,
      atRelease.keyState key = (drive.opened key p r).keyState key ∧
      (drive.opened key p r).doings key (p + r) (drive.rest key p r) =
        [⟨p + r, atRelease, .release key⟩] ∧
      (drive.played (p + r)).keyState key =
        (atRelease.carryOut (atRelease.deed (.release key))).keyState key := by
  have hbefore : ∀ move ∈ drive.rest key p r, (drive.opened key p r).Answers key move →
      move ≠ .release key → Move.stage (.release key) < move.stage := by
    -- all releases come before the first press
    intro move hm ha hne
    rcases H.answers_rest le_rfl hm ha with ⟨he, -⟩ | ⟨another, rfl, -⟩
    · exact absurd he hne
    · exact Nat.lt_of_lt_of_le (by decide : 2 < 3) (Nat.le_add_right 3 another.val)
  have hafter : ∀ reached : Engine,
      reached.keyState key = (drive.opened key p r).keyState key →
      reached.rules = drive.engine.rules → ∀ later ∈ drive.rest key p r,
        later ≠ .release key → ¬(reached.make (.release key)).value.Answers key later := by
    intro reached _ _ later hm hne ha
    rcases H.answers_rest le_rfl hm ha with ⟨he, -⟩ | ⟨-, -, -, -, since, tap, hold, hpending⟩
    · exact hne he
    · exact phase_make_release reached key since tap hold hpending
  obtain ⟨atRelease, hstate, -, hdoings, hplayed⟩ := H.rest_of_first
    ((H.mem_rest_release le_rfl).mpr rfl) (answers_release.mpr rfl) hbefore hafter
  refine ⟨atRelease, hstate, hdoings, ?_⟩
  rw [hplayed, make_value]

/-! ## From cycle to cycle -/

theorem stay_succ (hi : i ≤ r) : (drive.before (p + i + 1)).deed .switch = .stay :=
  H.stays (i + 1) (Nat.succ_pos i) (Nat.succ_le_succ hi)

/-- What a key does not answer to between two openings leaves it alone. -/
theorem opened_succ_of_not_answers (hi : i ≤ r)
    (h : ¬(drive.before (p + i + 1)).Answers key (.poll key (drive.now (p + i + 1)))) :
    (drive.opened key p (i + 1)).keyState key = (drive.played (p + i)).keyState key ∧
      (drive.before (p + i + 1)).doings key (p + i + 1) (drive.opening (p + i + 1)) = [] := by
  obtain ⟨hpolled, hdoings⟩ := opening_of_not_answers (H.stay_succ hi) h
  exact ⟨hpolled.trans (before_succ drive key (p + i)).1, hdoings⟩

/-- A key that is idle or held does not answer to a poll. -/
theorem opened_succ_of_settled {s : KeyState} (hi : i ≤ r)
    (hplayed : (drive.played (p + i)).keyState key = s)
    (hs : s.phase = .idle ∨ ∃ hold, s.phase = .held hold) :
    (drive.opened key p (i + 1)).keyState key = s ∧
      (drive.before (p + i + 1)).doings key (p + i + 1) (drive.opening (p + i + 1)) = [] := by
  have hbefore := (before_succ drive key (p + i)).1.trans hplayed
  have hnot : ¬(drive.before (p + i + 1)).Answers key (.poll key (drive.now (p + i + 1))) := by
    rw [answers_poll, hbefore]
    rcases hs with hs | ⟨hold, hs⟩
    · simp [hs]
    · simp [hs]
  obtain ⟨hopened, hdoings⟩ := H.opened_succ_of_not_answers hi hnot
  exact ⟨hopened.trans hplayed, hdoings⟩

/-- A key that is held stays so until it is released. -/
theorem holdsUntilRelease_of_held {count : Nat} (hi : i + count = r)
    (h : (drive.opened key p i).keyState key = ⟨true, some latched, .held hold⟩) :
    drive.HoldsUntilRelease key p r hold latched i (drive.accountFrom key p i count) := by
  induction count generalizing i with
  | zero =>
    obtain rfl : i = r := hi
    obtain ⟨atRelease, hstate, hdoings, hplayed⟩ := H.rest_of_released
    have hdeed : atRelease.deed (.release key) = .endHold key :=
      deed_release_of_held (by rw [hstate, h])
    rw [hdeed, keyState_endHold] at hplayed
    obtain ⟨-, hnext⟩ := H.opened_succ_of_settled le_rfl hplayed (.inl rfl)
    refine ⟨atRelease, ?_, hdeed, fun j hj hlt => absurd hj hlt.not_ge, hstate.trans h, hplayed⟩
    rw [accountFrom_zero, hdoings, hnext, List.append_nil]
  | succ count ih =>
    have hlt : i < r := by omega
    have hnever : ∀ since tap hold',
        ((drive.opened key p i).keyState key).phase ≠ .pending since tap hold' := by
      intro since tap hold' he
      rw [h] at he
      cases he
    obtain ⟨hplayed, hdoings⟩ := H.rest_of_not_answers hlt (.inl hnever)
    rw [h] at hplayed
    obtain ⟨hopened, hnext⟩ := H.opened_succ_of_settled hlt.le hplayed (.inr ⟨hold, rfl⟩)
    rw [accountFrom_succ, hdoings, hnext]
    exact (ih (by omega) hopened).of_succ hplayed

/-- The release of a key that still pends is a tap. -/
theorem endsTapped_of_pending {since : Tick}
    (h : (drive.opened key p r).keyState key = ⟨true, none, .pending since tap hold⟩) :
    drive.EndsTapped key p r tap (drive.accountFrom key p r 0) := by
  obtain ⟨atRelease, hstate, hdoings, hplayed⟩ := H.rest_of_released
  have hdeed : atRelease.deed (.release key) = .tap key tap :=
    deed_release_of_pending (by rw [hstate, h])
  rw [hdeed, keyState_tap] at hplayed
  have htapped := (before_succ drive key (p + r)).1.trans hplayed
  have hanswers : (drive.before (p + r + 1)).Answers key (.poll key (drive.now (p + r + 1))) :=
    answers_poll.mpr ⟨rfl, .inl ⟨tap, by rw [htapped]⟩⟩
  obtain ⟨atPoll, hbefore, -, hnext, hpolled⟩ := opening_of_answers (H.stay_succ le_rfl) hanswers
  have hend : atPoll.deed (.poll key (drive.now (p + r + 1))) = .endTap key :=
    deed_poll_of_tapped (by rw [hbefore, htapped])
  rw [make_value, hend, keyState_endTap, hbefore, htapped] at hpolled
  refine ⟨atRelease, atPoll, ?_, hdeed, hend, hplayed, hpolled⟩
  rw [accountFrom_zero, hdoings, hnext]
  rfl

/-- The first interruption of a key that still pends is a hold. -/
theorem holds_of_interrupts {since : Tick} {count : Nat} (hi : i + (count + 1) = r)
    (h : (drive.opened key p i).keyState key = ⟨true, none, .pending since tap hold⟩)
    (hpolicy : drive.engine.tapHold.policy = .holdOnOtherKeyPress)
    (hinterrupts : drive.Interrupts key p i other)
    (hfirst : ∀ another, drive.Interrupts key p i another → other ≤ another) :
    ∃ atHold later, drive.accountFrom key p i (count + 1) =
        ⟨p + i, atHold, .interrupt key other⟩ :: later ∧
      atHold.deed (.interrupt key other) = .hold key hold ∧
      drive.HoldsUntilRelease key p r hold (atHold.resolver.outcome hold) i later := by
  have hlt : i < r := by omega
  obtain ⟨atHold, hstate, hdeed, hdoings, hplayed⟩ :=
    H.rest_of_interrupts hlt (by rw [h]) hpolicy hinterrupts hfirst
  rw [keyState_hold, hstate, h] at hplayed
  obtain ⟨hopened, hnext⟩ := H.opened_succ_of_settled hlt.le hplayed (.inr ⟨hold, rfl⟩)
  have hrest : drive.HoldsUntilRelease key p r hold (atHold.resolver.outcome hold) (i + 1)
      (drive.accountFrom key p (i + 1) count) :=
    H.holdsUntilRelease_of_held (by omega) hopened
  refine ⟨atHold, _, ?_, hdeed, hrest.of_succ hplayed⟩
  rw [accountFrom_succ, hdoings, hnext]
  rfl

/-- The poll at the limit is a hold for a key that still pends. -/
theorem holds_of_limit {count : Nat} (hi : i + (count + 1) = r) (hlimit : i + 1 = drive.limit)
    (h : (drive.played (p + i)).keyState key = ⟨true, none, .pending (drive.now p) tap hold⟩)
    (hdoings : (drive.opened key p i).doings key (p + i) (drive.rest key p i) = []) :
    ∃ atHold later, drive.accountFrom key p i (count + 1) =
        ⟨p + (i + 1), atHold, .poll key (drive.now (p + (i + 1)))⟩ :: later ∧
      atHold.deed (.poll key (drive.now (p + (i + 1)))) = .hold key hold ∧
      drive.HoldsUntilRelease key p r hold (atHold.resolver.outcome hold) (i + 1) later := by
  have hpending := (before_succ drive key (p + i)).1.trans h
  have hdue := (due_iff drive p hlimit.le).mpr hlimit
  have hanswers : (drive.before (p + i + 1)).Answers key (.poll key (drive.now (p + i + 1))) :=
    answers_poll.mpr ⟨rfl, .inr ⟨_, _, _, by rw [hpending], hdue⟩⟩
  obtain ⟨atHold, hbefore, hrules, hnext, hpolled⟩ :=
    opening_of_answers (H.stay_succ (by omega)) hanswers
  have hthreshold := (Prod.mk.inj (hrules.trans (rules_before drive (p + i + 1)).symm)).1
  have hdeed : atHold.deed (.poll key (drive.now (p + i + 1))) = .hold key hold :=
    deed_poll_of_pending (by rw [hbefore, hpending]) (by rw [hthreshold]; exact hdue)
  rw [make_value, hdeed, keyState_hold, hbefore, hpending] at hpolled
  have hrest : drive.HoldsUntilRelease key p r hold (atHold.resolver.outcome hold) (i + 1)
      (drive.accountFrom key p (i + 1) count) :=
    H.holdsUntilRelease_of_held (by omega) hpolled
  refine ⟨atHold, _, ?_, hdeed, hrest⟩
  rw [accountFrom_succ, hdoings, hnext]
  rfl

/-- From any cycle on in which a key still pends, it is tapped if neither the limit nor an
interruption comes before its release, and held by the first of them otherwise. -/
theorem decided {count : Nat} (hi : i + count = r) (hlimit : i < drive.limit)
    (hfree : drive.Uninterrupted key p i)
    (h : (drive.opened key p i).keyState key =
      ⟨true, none, .pending (drive.now p) tap hold⟩) :
    ((r < drive.limit ∧ drive.Uninterrupted key p r) ∧
        drive.EndsTapped key p r tap (drive.accountFrom key p i count)) ∨
      (¬(r < drive.limit ∧ drive.Uninterrupted key p r) ∧
        ∃ j move atHold later, drive.Decides key p r j move ∧
          drive.accountFrom key p i count = ⟨p + j, atHold, move⟩ :: later ∧
          atHold.deed move = .hold key hold ∧
          drive.HoldsUntilRelease key p r hold (atHold.resolver.outcome hold) j later) := by
  -- on the cycles that are left until the release
  induction count generalizing i with
  | zero =>
    obtain rfl : i = r := hi
    exact .inl ⟨⟨hlimit, hfree⟩, H.endsTapped_of_pending h⟩
  | succ count ih =>
    have hlt : i < r := by omega
    by_cases hint : drive.engine.tapHold.policy = .holdOnOtherKeyPress ∧
        ∃ other, drive.Interrupts key p i other
    · obtain ⟨hpolicy, hsome⟩ := hint
      obtain ⟨other, hother, hmin⟩ :=
        wellFounded_lt.has_min {other | drive.Interrupts key p i other} hsome
      have hfirst : ∀ another, drive.Interrupts key p i another → other ≤ another :=
        fun another ha => not_lt.mp (hmin another ha)
      obtain ⟨atHold, later, hholds⟩ := H.holds_of_interrupts hi h hpolicy hother hfirst
      refine .inr ⟨fun hcond => hcond.2 hpolicy i hlt other hother, i, _, atHold, later, ?_, hholds⟩
      exact .interruption hpolicy hlimit hlt hfree hother hfirst
    · have hnone : drive.engine.tapHold.policy = .holdOnOtherKeyPress →
          ∀ other, ¬drive.Interrupts key p i other :=
        fun hpolicy other ho => hint ⟨hpolicy, other, ho⟩
      obtain ⟨hplayed, hdoings⟩ := H.rest_of_not_answers hlt (.inr hnone)
      rw [h] at hplayed
      by_cases hl : i + 1 = drive.limit
      · obtain ⟨atHold, later, hholds⟩ := H.holds_of_limit hi hl hplayed hdoings
        refine .inr ⟨fun hcond => ?_, i + 1, _, atHold, later, ?_, hholds⟩
        · omega
        · exact .timeout hl (by omega) (hfree.succ hnone)
      · have hpending := (before_succ drive key (p + i)).1.trans hplayed
        have hnot : ¬(drive.before (p + i + 1)).Answers key
            (.poll key (drive.now (p + i + 1))) := by
          rw [answers_poll, hpending]
          rintro ⟨-, ⟨tapped, he⟩ | ⟨since, tap, hold, he, hdue⟩⟩
          · cases he
          · cases he
            exact hl ((due_iff drive p (by omega)).mp hdue)
        obtain ⟨hopened, hnext⟩ := H.opened_succ_of_not_answers hlt.le hnot
        have hrest := ih (by omega) (by omega) (hfree.succ hnone) (hopened.trans hplayed)
        rw [accountFrom_succ, hdoings, hnext]
        exact hrest

/-- A key that is up and idle with nothing latched when the cycle starts still is when its press is
handled. -/
theorem keyState_atPress (h : (drive.before p).keyState key = ⟨false, none, .idle⟩) :
    (drive.atPress key p).keyState key = ⟨false, none, .idle⟩ := by
  have hsplit : Move.ofCycle (drive.edges p) (drive.now p) =
      _ ++ .ofEdge key (drive.now p) .pressed :: drive.rest key p 0 := moves_eq_press H.pressed
  exact idle_play (Move.split_at_edge hsplit).2.1 h

end PressedFor

/-- The decision between tap and hold is exact. A tap-hold key that is up and idle with nothing
latched is pressed in cycle `p` and released in cycle `p + r`. It resolves as a tap exactly if `r`
is below the threshold and, under the policy that minds, no other key is pressed in between. Its
account lists all that is done about it: the start, then either the tap on release and its end, or
the hold at the limit or at the first interruption before that and its end on release. -/
theorem tap_or_hold_exact (drive : Drive) (key : Key) (p r : Nat) (tap hold : BasicAction)
    (H : drive.PressedFor key p r)
    (hidle : (drive.atPress key p).keyState key = ⟨false, none, .idle⟩)
    (hlookup : (drive.atPress key p).lookup key = .tapHold tap hold) :
    let press : Doing := ⟨p, drive.atPress key p, .press key (drive.now p)⟩
    let taps : Prop := r < drive.engine.tapHold.threshold.toNat ∧
      (drive.engine.tapHold.policy = .holdOnOtherKeyPress →
        ∀ i < r, ∀ other, ¬drive.Interrupts key p i other)
    press.deed = .start key tap hold (drive.now p) ∧
    ((∃ doing ∈ drive.account key p r, ∃ action, doing.deed = .tap key action) ↔ taps) ∧
    (taps → ∃ later, drive.account key p r = press :: later ∧
      drive.EndsTapped key p r tap later) ∧
    (¬taps → ∃ i move atHold later, drive.Decides key p r i move ∧
      drive.account key p r = press :: ⟨p + i, atHold, move⟩ :: later ∧
      atHold.deed move = .hold key hold ∧
      drive.HoldsUntilRelease key p r hold (atHold.resolver.outcome hold) i later) := by
  intro press taps
  have hstart : (drive.atPress key p).deed (.press key (drive.now p)) =
      .start key tap hold (drive.now p) := by
    simp only [deed, hlookup]
  have hpress : press.deed = .start key tap hold (drive.now p) := by
    simp only [press, Doing.deed, hstart]
  have hopened : (drive.opened key p 0).keyState key =
      ⟨true, none, .pending (drive.now p) tap hold⟩ := by
    rw [opened, make_value, hstart, keyState_start, hidle]
  have hbelow : r < drive.limit ↔ r < drive.engine.tapHold.threshold.toNat := by
    have hpos := H.pos
    unfold limit
    omega
  have htaps : (r < drive.limit ∧ drive.Uninterrupted key p r) ↔ taps := and_congr_left' hbelow
  have haccount : drive.account key p r = press :: drive.accountFrom key p 0 r :=
    account_eq H.pressed
  have hlimit : 0 < drive.limit := Nat.lt_of_lt_of_le Nat.one_pos (Nat.le_max_right _ _)
  have hdecided := H.decided (Nat.zero_add r) hlimit (fun _ j hj => absurd hj (Nat.not_lt_zero j))
    hopened
  rw [htaps] at hdecided
  rw [haccount]
  refine ⟨hpress, ⟨?_, fun ht => ?_⟩, fun ht => ?_, fun ht => ?_⟩
  · rintro ⟨doing, hm, action, hd⟩
    refine (hdecided.resolve_right ?_).1
    rintro ⟨-, i, move, atHold, later, -, hlist, hhold, atRelease, hlater, hend, -⟩
    rw [hlist, hlater, List.mem_cons, List.mem_cons, List.mem_singleton] at hm
    rcases hm with rfl | rfl | rfl
    · rw [hpress] at hd
      cases hd
    · cases hhold.symm.trans hd
    · cases hend.symm.trans hd
  · obtain ⟨-, atRelease, atPoll, hlist, hd, -⟩ := hdecided.resolve_right fun h => h.1 ht
    rw [hlist]
    exact ⟨_, List.mem_cons_of_mem _ List.mem_cons_self, tap, hd⟩
  · exact ⟨_, rfl, (hdecided.resolve_right fun h => h.1 ht).2⟩
  · obtain ⟨-, i, move, atHold, later, hdecides, hlist, hrest⟩ :=
      hdecided.resolve_left fun h => ht h.1
    exact ⟨i, move, atHold, later, hdecides, by rw [hlist], hrest⟩

/-- A tap within two cycles, while the clock wraps around. -/
theorem tap_or_hold_exact_tap :
    let keymap := Keymap.empty.set 0 Layer.base 3 (.tapHold (.layerToggle 1) (.layerHold 2))
    let edges : Nat → Edges := fun cycle =>
      if cycle = 0 then Edges.none.set 3 (some .pressed)
      else if cycle = 2 then Edges.none.set 3 (some .released)
      else Edges.none
    ∃ engine, Engine.new keymap {} = .ok engine ∧
      let drive : Drive := ⟨engine, 4294967295, fun _ => [], edges⟩
      drive.PressedFor 3 0 2 ∧
      (drive.atPress 3 0).keyState 3 = ⟨false, none, .idle⟩ ∧
      (drive.atPress 3 0).lookup 3 = .tapHold (.layerToggle 1) (.layerHold 2) ∧
      (2 < drive.engine.tapHold.threshold.toNat ∧
        ∀ i < 2, ∀ other, ¬drive.Interrupts 3 0 i other) ∧
      ∃ later, drive.account 3 0 2 =
          ⟨0, drive.atPress 3 0, .press 3 (drive.now 0)⟩ :: later ∧
        drive.EndsTapped 3 0 2 (.layerToggle 1) later := by
  intro keymap edges
  obtain ⟨engine, hnew⟩ : ∃ engine, Engine.new keymap {} = .ok engine := ⟨_, rfl⟩
  refine ⟨engine, hnew, ?_⟩
  intro drive
  have H : drive.PressedFor 3 0 2 := by
    refine ⟨Nat.two_pos, rfl, fun i h0 h2 => ?_, rfl, fun i h0 h3 => ?_⟩
    · obtain rfl : i = 1 := by omega
      rfl
    · cases hnew
      interval_cases i <;> decide +kernel
  have hidle : (drive.atPress 3 0).keyState 3 = ⟨false, none, .idle⟩ := by
    refine H.keyState_atPress ?_
    cases hnew
    decide +kernel
  have hlookup : (drive.atPress 3 0).lookup 3 = .tapHold (.layerToggle 1) (.layerHold 2) := by
    cases hnew
    decide +kernel
  have hfree : ∀ i < 2, ∀ other, ¬drive.Interrupts 3 0 i other := by
    rintro i hi other ⟨hpressed, hne, -⟩
    interval_cases i
    · change (Slots.set Edges.none 3 (some .pressed))[other] = some .pressed at hpressed
      rw [Slots.getElem_set_ne _ hne.symm, Edges.none, Slots.getElem_fill] at hpressed
      cases hpressed
    · change Edges.none[other] = some .pressed at hpressed
      rw [Edges.none, Slots.getElem_fill] at hpressed
      cases hpressed
  have htaps : 2 < drive.engine.tapHold.threshold.toNat := by
    cases hnew
    decide +kernel
  obtain ⟨-, -, hends, -⟩ := tap_or_hold_exact drive 3 0 2 _ _ H hidle hlookup
  exact ⟨H, hidle, hlookup, ⟨htaps, hfree⟩, hends ⟨htaps, fun _ => hfree⟩⟩

end Drive

end Keystroke
