import Keystroke.Proofs.Engine.KeyStates
import Keystroke.Proofs.Engine.Order

/-!
# What happens to one key

What some moves do about one key is the list of its `Doing`s: the moves with a deed about that key,
each with the state it was made in. A key does not answer to most moves, and then nothing changes
for it (`play_of_not_answers`), so its doings are found by looking for the first move that it
answers to (`doings_singleton`); among the polls of a cycle that is its own (`polls_of_answers`).
-/

namespace Keystroke

/-- A move with a deed about some key, and the state it was made in. -/
structure Doing where
  cycle : Nat
  state : Engine
  move : Move

/-- What was done. -/
def Doing.deed (doing : Doing) : Deed := doing.state.deed doing.move

namespace Engine

/-- The threshold and the policy of the tap-hold machine, which nothing changes. -/
def rules (engine : Engine) : Tick × InterruptPolicy :=
  (engine.tapHold.threshold, engine.tapHold.policy)

/-- The move comes to a deed about the key. -/
def Answers (engine : Engine) (key : Key) (move : Move) : Prop :=
  (engine.deed move).key? = some key

/-- What some moves of a cycle do about a key. -/
def doings (engine : Engine) (key : Key) (cycle : Nat) : List Move → List Doing
  | [] => []
  | move :: moves =>
    if (engine.deed move).key? = some key then
      ⟨cycle, engine, move⟩ :: (engine.make move).value.doings key cycle moves
    else (engine.make move).value.doings key cycle moves

variable {engine other : Engine} {key presser : Key} {move : Move} {moves : List Move} {now : Tick}
  {cycle : Nat}

/-! ## What a key answers to -/

theorem not_answers_switch : ¬engine.Answers key .switch := by
  simp only [Answers, deed]
  split
  · simp [Deed.key?]
  · split <;> simp [Deed.key?]

theorem answers_release {key' : Key} : engine.Answers key (.release key') ↔ key' = key := by
  simp only [Answers, deed]
  split <;> simp [Deed.key?]

theorem answers_press {key' : Key} : engine.Answers key (.press key' now) ↔ key' = key := by
  simp only [Answers, deed]
  split <;> simp [Deed.key?]

theorem answers_poll {key' : Key} : engine.Answers key (.poll key' now) ↔ key' = key ∧
    ((∃ tap, (engine.keyState key).phase = .tapped tap) ∨
      ∃ since tap hold, (engine.keyState key).phase = .pending since tap hold ∧
        engine.tapHold.threshold ≤ elapsed now since) := by
  simp only [Answers, deed, keyState]
  constructor
  · intro h
    split at h
    · next tap hphase =>
      obtain rfl := Option.some.inj h
      exact ⟨rfl, .inl ⟨tap, hphase⟩⟩
    · next since tap hold hphase =>
      split at h
      · next hdue =>
        obtain rfl := Option.some.inj h
        exact ⟨rfl, .inr ⟨since, tap, hold, hphase, hdue⟩⟩
      · cases h
    · cases h
  · rintro ⟨rfl, ⟨tap, hphase⟩ | ⟨since, tap, hold, hphase, hdue⟩⟩
    · rw [hphase]
      rfl
    · rw [hphase]
      simp only [if_pos hdue, Deed.key?]

theorem answers_interrupt {key' : Key} : engine.Answers key (.interrupt key' presser) ↔
    key' = key ∧ key ≠ presser ∧ engine.tapHold.policy = .holdOnOtherKeyPress ∧
      ∃ since tap hold, (engine.keyState key).phase = .pending since tap hold := by
  simp only [Answers, deed, keyState]
  constructor
  · intro h
    split at h
    · next since tap hold hpolicy hphase =>
      split at h
      · cases h
      · next hne =>
        obtain rfl := Option.some.inj h
        exact ⟨rfl, hne, hpolicy, since, tap, hold, hphase⟩
    · cases h
  · rintro ⟨rfl, hne, hpolicy, since, tap, hold, hphase⟩
    rw [hpolicy, hphase]
    simp only [if_neg hne, Deed.key?]

/-- Whether a key answers to a move depends on its own state and the rules alone. -/
theorem answers_congr (hs : other.keyState key = engine.keyState key)
    (hr : other.rules = engine.rules) : other.Answers key move ↔ engine.Answers key move := by
  obtain ⟨hthreshold, hpolicy⟩ := Prod.mk.inj hr
  cases move with
  | switch => exact iff_of_false not_answers_switch not_answers_switch
  | poll key' now => rw [answers_poll, answers_poll, hs, hthreshold]
  | release key' => rw [answers_release, answers_release]
  | interrupt key' presser => rw [answers_interrupt, answers_interrupt, hs, hpolicy]
  | press key' now => rw [answers_press, answers_press]

theorem rules_carryOut (engine : Engine) (deed : Deed) :
    (engine.carryOut deed).rules = engine.rules := by
  cases deed <;> rfl

theorem rules_make (engine : Engine) (move : Move) :
    (engine.make move).value.rules = engine.rules := by
  rw [make_value, rules_carryOut]

theorem rules_play (engine : Engine) (moves : List Move) :
    (engine.play moves).rules = engine.rules :=
  play_of_carryOut rules_carryOut engine moves

/-! ## Doings -/

theorem doings_append (moves more : List Move) : engine.doings key cycle (moves ++ more) =
    engine.doings key cycle moves ++ (engine.play moves).doings key cycle more := by
  induction moves generalizing engine with
  | nil => rfl
  | cons move moves ih =>
    simp only [List.cons_append, doings, play_cons, ih]
    split <;> rfl

theorem doings_cons_of_answers (h : engine.Answers key move) :
    engine.doings key cycle (move :: moves) =
      ⟨cycle, engine, move⟩ :: (engine.make move).value.doings key cycle moves := by
  rw [doings]
  exact if_pos h

/-- Moves that a key does not answer to leave it alone. -/
theorem play_of_not_answers (h : ∀ move ∈ moves, ¬engine.Answers key move)
    (hs : .switch ∉ moves) : (engine.play moves).keyState key = engine.keyState key ∧
      engine.doings key cycle moves = [] := by
  induction moves generalizing engine with
  | nil => exact ⟨rfl, rfl⟩
  | cons move moves ih =>
    have hnot := h move List.mem_cons_self
    have hstep : (engine.make move).value.keyState key = engine.keyState key := by
      rw [make_value]
      exact keyState_carryOut_of_ne hnot
        (deed_ne_switch fun he => hs (he ▸ List.mem_cons_self))
    obtain ⟨hplay, hdoings⟩ := @ih (engine.make move).value
      (fun later hm ha => h later (List.mem_cons_of_mem _ hm)
        ((answers_congr hstep (rules_make engine move)).mp ha))
      fun hm => hs (List.mem_cons_of_mem _ hm)
    refine ⟨hplay.trans hstep, ?_⟩
    rw [doings, hdoings]
    exact if_neg hnot

/-- If a key answers to one move alone, that move comes to it in the state that it had at the start
and decides what becomes of it. -/
theorem doings_singleton {more : List Move} (h : ∀ move ∈ moves, ¬engine.Answers key move)
    (hs : .switch ∉ moves ++ more) (ha : engine.Answers key move)
    (hafter : ∀ reached : Engine, reached.keyState key = engine.keyState key →
      reached.rules = engine.rules →
      ∀ later ∈ more, ¬(reached.make move).value.Answers key later) :
    ∃ reached : Engine, reached.keyState key = engine.keyState key ∧
      reached.rules = engine.rules ∧
      engine.doings key cycle (moves ++ move :: more) = [⟨cycle, reached, move⟩] ∧
      (engine.play (moves ++ move :: more)).keyState key =
        (reached.make move).value.keyState key := by
  obtain ⟨hplay, hdoings⟩ :=
    @play_of_not_answers _ _ _ cycle h fun hm => hs (List.mem_append_left _ hm)
  have hrules := rules_play engine moves
  rw [doings_append, hdoings, List.nil_append, play_append, play_cons]
  obtain ⟨reached, hreached⟩ : ∃ reached, reached = engine.play moves := ⟨_, rfl⟩
  rw [← hreached] at hplay hrules ⊢
  obtain ⟨hlast, hrest⟩ := @play_of_not_answers _ _ _ cycle (hafter reached hplay hrules)
    fun hm => hs (List.mem_append_right _ hm)
  refine ⟨reached, hplay, hrules, ?_, hlast⟩
  rw [doings_cons_of_answers ((answers_congr hplay hrules).mpr ha), hrest]

/-- The polls of a cycle leave a key alone that does not answer to its own. -/
theorem polls_of_not_answers (h : ¬engine.Answers key (.poll key now)) :
    (engine.play (Move.polls now)).keyState key = engine.keyState key ∧
      engine.doings key cycle (Move.polls now) = [] := by
  refine play_of_not_answers (fun move hm ha => ?_) (by simp [Move.polls])
  obtain ⟨key', -, rfl⟩ := List.mem_map.mp hm
  obtain rfl := (answers_poll.mp ha).1
  exact h ha

/-- Among the polls of a cycle a key answers to its own alone, and that finds it as it was at the
start. -/
theorem polls_of_answers (h : engine.Answers key (.poll key now)) :
    ∃ reached : Engine, reached.keyState key = engine.keyState key ∧
      reached.rules = engine.rules ∧
      engine.doings key cycle (Move.polls now) = [⟨cycle, reached, .poll key now⟩] ∧
      (engine.play (Move.polls now)).keyState key =
        (reached.make (.poll key now)).value.keyState key := by
  obtain ⟨moves, more, hsplit⟩ := List.append_of_mem (Move.mem_polls key now)
  have hnodup : (Move.polls now).Nodup := Key.nodup_all.map fun a b he => (Move.poll.inj he).1
  have hswitch : .switch ∉ Move.polls now := by simp [Move.polls]
  have hother : ∀ move ∈ Move.polls now, move ≠ .poll key now →
      ∀ engine : Engine, ¬engine.Answers key move := by
    intro move hm hne engine ha
    obtain ⟨key', -, rfl⟩ := List.mem_map.mp hm
    obtain rfl := (answers_poll.mp ha).1
    exact hne rfl
  rw [hsplit] at hnodup hother hswitch ⊢
  rw [List.nodup_middle, List.nodup_cons, List.mem_append, not_or] at hnodup
  refine doings_singleton (fun move hm => ?_) (fun hm => hswitch ?_) h fun reached _ _ move hm => ?_
  · exact hother move (List.mem_append_left _ hm) (fun he => hnodup.1.1 (he ▸ hm)) _
  · rcases List.mem_append.mp hm with hm | hm
    · exact List.mem_append_left _ hm
    · exact List.mem_append_right _ (List.mem_cons_of_mem _ hm)
  · exact hother move (List.mem_append_right _ (List.mem_cons_of_mem _ hm))
      (fun he => hnodup.1.2 (he ▸ hm)) _

/-- If no other config is due, a key does not notice the start of a cycle. -/
theorem doings_switch_cons (h : engine.deed .switch = .stay) (key : Key) (cycle : Nat)
    (moves : List Move) : (engine.make .switch).value.keyState key = engine.keyState key ∧
      engine.doings key cycle (.switch :: moves) =
        (engine.make .switch).value.doings key cycle moves := by
  refine ⟨?_, ?_⟩
  · rw [make_value, h]
    rfl
  · rw [doings]
    exact if_neg not_answers_switch

end Engine

end Keystroke
