import Keystroke.Proofs.TapHold

/-!
# Decisions are issued once and undone once

The resolutions of a key, together with the release that its phase leaves due, are the presses and
releases of the decisions made so far, and those are the decisions begun but for the one that is
still open (`Settled`). Every turn keeps this, and so it holds after any operations
(`Machine.settled_after`).
-/

namespace Keystroke

namespace TapHold

/-- A decision that has been made between a tap and a hold action. -/
inductive Decision where
  | tapped (tap hold : BasicAction)
  | held (tap hold : BasicAction)
  deriving DecidableEq, Repr

namespace Decision

/-- The actions the decision was begun with. -/
def begun : Decision → BasicAction × BasicAction
  | tapped tap hold | held tap hold => (tap, hold)

/-- The press and the release of the action decided for. -/
def pair : Decision → List Resolution
  | tapped tap _ => [.tapPressed tap, .tapReleased tap]
  | held _ hold => [.holdPressed hold, .holdReleased hold]

end Decision

namespace Phase

/-- The decision that has been begun and is still open. -/
def undecided : Phase → List (BasicAction × BasicAction)
  | pending _ tap hold => [(tap, hold)]
  | idle | tapped _ | held _ => []

/-- The release that is still due for a decision that has been made. -/
def due : Phase → List Resolution
  | tapped tap => [.tapReleased tap]
  | held hold => [.holdReleased hold]
  | idle | pending .. => []

end Phase

/-- What has been begun and issued for a key agrees with some decisions made in between. -/
def Settled (phase : Phase) (begun : List (BasicAction × BasicAction))
    (issued : List Resolution) : Prop :=
  ∃ decided : List Decision, begun = decided.map Decision.begun ++ phase.undecided ∧
    issued ++ phase.due = decided.flatMap Decision.pair

section
variable {phase next : Phase} {begun more : List (BasicAction × BasicAction)}
  {issued new : List Resolution}

theorem Settled.turn (H : Settled phase begun issued) (h : Turn phase more new next) :
    Settled next (begun ++ more) (issued ++ new) := by
  obtain ⟨decided, hbegun, hissued⟩ := H
  cases h with
  | keep => exact ⟨decided, by simpa using hbegun, by simpa using hissued⟩
  | start tap hold now =>
    refine ⟨decided, ?_, by simpa [Phase.due] using hissued⟩
    simpa [Phase.undecided] using hbegun
  -- a press decides what was pending, and its release is due from then on
  | pressTap since tap hold =>
    refine ⟨decided ++ [.tapped tap hold], ?_, ?_⟩
    · simpa [Phase.undecided, Decision.begun] using hbegun
    · simpa [Phase.due, Decision.pair] using hissued
  | pressHold since tap hold =>
    refine ⟨decided ++ [.held tap hold], ?_, ?_⟩
    · simpa [Phase.undecided, Decision.begun] using hbegun
    · simpa [Phase.due, Decision.pair] using hissued
  | releaseTap tap =>
    refine ⟨decided, by simpa [Phase.undecided] using hbegun, ?_⟩
    simpa [Phase.due] using hissued
  | releaseHold hold =>
    refine ⟨decided, by simpa [Phase.undecided] using hbegun, ?_⟩
    simpa [Phase.due] using hissued

/-- Nothing is issued for a key that no decision has been begun for. -/
theorem Settled.eq_nil (H : Settled phase [] issued) : issued = [] := by
  obtain ⟨decided, hbegun, hissued⟩ := H
  obtain ⟨hmap, -⟩ := List.append_eq_nil_iff.mp hbegun.symm
  rw [List.map_eq_nil_iff.mp hmap] at hissued
  exact (List.append_eq_nil_iff.mp hissued).1

end

/-! ## Runs of the machine -/

/-- The decisions that some operations start for a key, in order. The operations are given latest
first. -/
def begunBy (key : Key) : List Operation → List (BasicAction × BasicAction)
  | [] => []
  | operation :: earlier => begunBy key earlier ++ operation.begun key

namespace Machine

/-- The machine after some operations, the latest first. -/
def after (machine : Machine) : List Operation → Machine
  | [] => machine
  | operation :: earlier => ((machine.after earlier).operate operation).1

/-- The resolutions that some operations, the latest first, issue for a key. -/
def issued (machine : Machine) (key : Key) : List Operation → List Resolution
  | [] => []
  | operation :: earlier => machine.issued key earlier ++
      issuedFor key ((machine.after earlier).operate operation).2

/-- The operation starts no decision for a key that is not idle. -/
def Admits (machine : Machine) : Operation → Prop
  | .start key _ _ _ => machine.phases[key] = .idle
  | .release _ | .poll _ | .interrupt _ => True

/-- The machine admits each of some operations, the latest first, after those before it. -/
def Orderly (machine : Machine) : List Operation → Prop
  | [] => True
  | operation :: earlier => machine.Orderly earlier ∧ (machine.after earlier).Admits operation

instance : (machine : Machine) → (operation : Operation) → Decidable (machine.Admits operation)
  | machine, .start key _ _ _ => inferInstanceAs (Decidable (machine.phases[key] = .idle))
  | _, .release _ | _, .poll _ | _, .interrupt _ => inferInstanceAs (Decidable True)

instance : (machine : Machine) → (operations : List Operation) →
    Decidable (machine.Orderly operations)
  | _, [] => inferInstanceAs (Decidable True)
  | machine, operation :: earlier =>
    have := instDecidableOrderly machine earlier
    inferInstanceAs (Decidable (_ ∧ (machine.after earlier).Admits operation))

variable {machine : Machine} {operation : Operation} {operations : List Operation} {key : Key}

theorem Admits.begun_eq_nil_or (h : machine.Admits operation) (key : Key) :
    operation.begun key = [] ∨ machine.phases[key] = .idle := by
  cases operation with
  | start other tap hold now =>
    by_cases he : other = key
    · exact .inr (he ▸ h)
    · exact .inl (if_neg he)
  | release | poll | interrupt => exact .inl rfl

theorem settled_after (h : machine.Orderly operations) (hidle : machine.phases[key] = .idle) :
    Settled (machine.after operations).phases[key] (begunBy key operations)
      (machine.issued key operations) := by
  induction operations with
  | nil =>
    rw [after, hidle]
    exact ⟨[], rfl, rfl⟩
  | cons operation earlier ih =>
    exact (ih h.1).turn (turn_operate operation (h.2.begun_eq_nil_or key))

/-- No operation issues a resolution for an idle key. -/
theorem issuedFor_operate (h : machine.phases[key] = .idle) :
    issuedFor key (machine.operate operation).2 = [] := by
  have hturn := turn_operate operation (.inr h)
  rw [h] at hturn
  exact hturn.eq_nil

end Machine

/-- Every decision is issued once and undone once. After any operations that start decisions for
idle keys only, what was begun for a key are decisions that have been made, in the order they were
begun, and after them the one that is pending, if the key is. What was issued for the key is the
press and the release of each decision made, with the tap or the hold action it was begun with,
except that the release of the last is still to come while the key is tapped or held. Nothing is
issued for a key that no decision has been begun for, and no operation issues anything for a key
that is idle. -/
theorem decisions_are_settled (threshold : Tick) (policy : InterruptPolicy)
    (operations : List Operation) (h : (Machine.new threshold policy).Orderly operations)
    (key : Key) :
    let machine := Machine.new threshold policy
    let phase := (machine.after operations).phases[key]
    (∃ decided : List Decision,
      begunBy key operations = decided.map Decision.begun ++ phase.undecided ∧
        machine.issued key operations ++ phase.due = decided.flatMap Decision.pair) ∧
    (begunBy key operations = [] → machine.issued key operations = []) ∧
    (phase = .idle → ∀ operation,
      machine.issued key (operation :: operations) = machine.issued key operations) := by
  intro machine phase
  have hidle : machine.phases[key] = .idle := Slots.getElem_fill _ _
  have hsettled := Machine.settled_after h hidle
  refine ⟨hsettled, fun hbegun => ?_, fun hidle operation => ?_⟩
  · rw [hbegun] at hsettled
    exact hsettled.eq_nil
  · rw [Machine.issued, Machine.issuedFor_operate hidle, List.append_nil]

/-- A key is tapped, held because another key is pressed, and then held past the end of the clock:
its first two decisions are done, and the release of the third is due. -/
theorem decisions_are_settled_held :
    let machine := Machine.new 200 .holdOnOtherKeyPress
    let operations : List Operation := [.start 3 (.emit .a) (.layerHold 1) 0, .release 3, .poll 1,
      .start 3 (.emit .b) (.layerHold 2) 1, .interrupt 5, .release 3,
      .start 3 (.emit .c) (.layerHold 3) 4294967290, .poll 300].reverse
    (machine.Orderly operations ∧ (machine.after operations).phases[(7 : Key)] = .idle) ∧
      (∃ decided : List Decision,
        begunBy 3 operations = decided.map Decision.begun ++ [] ∧
          machine.issued 3 operations ++ [.holdReleased (.layerHold 3)] =
            decided.flatMap Decision.pair) ∧
      machine.issued 7 operations = [] ∧
      machine.issued 7 (.release 7 :: operations) = machine.issued 7 operations := by
  intro machine operations
  have horderly : machine.Orderly operations := by decide +kernel
  have hidle : (machine.after operations).phases[(7 : Key)] = .idle := by decide +kernel
  have hheld : (machine.after operations).phases[(3 : Key)] = .held (.layerHold 3) := by decide +kernel
  obtain ⟨hsettled, -, -⟩ := decisions_are_settled _ _ operations horderly 3
  obtain ⟨-, hnone, hnothing⟩ := decisions_are_settled _ _ operations horderly 7
  rw [hheld] at hsettled
  exact ⟨⟨horderly, hidle⟩, hsettled, hnone rfl, hnothing hidle _⟩

end TapHold

end Keystroke
