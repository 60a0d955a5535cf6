import Mathlib
import Keystroke.TapHold

/-!
# What the tap-hold machine does to one key

The machine is driven by four operations. Each takes every key through one `Turn`, which tells all
that can become of the key and what is issued for it then (`Machine.turn_operate`). A poll and an
interrupt are turns of many keys at once; that these do not meddle with each other is
`Machine.turn_stepAll`.
-/

namespace Keystroke

namespace TapHold

/-- A call that drives the machine. -/
inductive Operation where
  | start (key : Key) (tap hold : BasicAction) (now : Tick)
  | release (key : Key)
  | poll (now : Tick)
  | interrupt (presser : Key)
  deriving DecidableEq, Repr

/-- The decision an operation starts for a key, given by its tap and its hold action. -/
def Operation.begun (key : Key) : Operation → List (BasicAction × BasicAction)
  | start other tap hold _ => if other = key then [(tap, hold)] else []
  | _ => []

/-- What an operation makes of the machine, and the resolutions it issues, in order. -/
def Machine.operate (machine : Machine) : Operation → Machine × List (Key × Resolution)
  | .start key tap hold now => ((machine.start key tap hold now).value, [])
  | .release key =>
    let (machine, resolution) := (machine.release key).value
    (machine, resolution.toList.map (key, ·))
  | .poll now =>
    let (machine, fired) := machine.poll now
    (machine, fired.map (·.value))
  | .interrupt presser =>
    let (machine, fired) := machine.interrupt presser
    (machine, fired.map (·.value))

/-- Those of some resolutions that are for a key. -/
def issuedFor (key : Key) (issued : List (Key × Resolution)) : List Resolution :=
  issued.filterMap fun (other, resolution) => if other = key then some resolution else none

/-- What an operation makes of a key, with the decision it starts and the resolution it issues
for it. -/
inductive Turn :
    Phase → List (BasicAction × BasicAction) → List Resolution → Phase → Prop where
  | keep (phase : Phase) : Turn phase [] [] phase
  | start (tap hold : BasicAction) (now : Tick) :
    Turn .idle [(tap, hold)] [] (.pending now tap hold)
  | pressTap (since : Tick) (tap hold : BasicAction) :
    Turn (.pending since tap hold) [] [.tapPressed tap] (.tapped tap)
  | releaseTap (tap : BasicAction) : Turn (.tapped tap) [] [.tapReleased tap] .idle
  | pressHold (since : Tick) (tap hold : BasicAction) :
    Turn (.pending since tap hold) [] [.holdPressed hold] (.held hold)
  | releaseHold (hold : BasicAction) : Turn (.held hold) [] [.holdReleased hold] .idle

/-- Nothing is issued for an idle key. -/
theorem Turn.eq_nil {begun : List (BasicAction × BasicAction)} {issued : List Resolution}
    {phase : Phase} (h : Turn .idle begun issued phase) : issued = [] := by
  cases h <;> rfl

namespace Phase

/-- What the release of a key makes of it, and the resolution that is issued. -/
def release : Phase → Phase × Option Resolution
  | pending _ tap _ => (tapped tap, some (.tapPressed tap))
  | held hold => (idle, some (.holdReleased hold))
  | phase => (phase, none)

theorem turn_release (phase : Phase) : Turn phase [] phase.release.2.toList phase.release.1 := by
  cases phase with
  | idle => exact .keep _
  | pending since tap hold => exact .pressTap since tap hold
  | tapped tap => exact .keep _
  | held hold => exact .releaseHold hold

/-- A poll is a turn of each key, and what it fires is for that key. -/
theorem turn_poll (threshold now : Tick) (key : Key) (phase : Phase) :
    ∃ issued : Option Resolution,
      (poll threshold now key phase).2.map (·.value) = issued.map (key, ·) ∧
        Turn phase [] issued.toList (poll threshold now key phase).1 := by
  cases phase with
  | idle => exact ⟨none, rfl, .keep _⟩
  | held hold => exact ⟨none, rfl, .keep _⟩
  | tapped tap => exact ⟨some (.tapReleased tap), rfl, .releaseTap tap⟩
  | pending since tap hold =>
    by_cases hdue : threshold ≤ elapsed now since
    · rw [poll, if_pos hdue]
      exact ⟨some (.holdPressed hold), rfl, .pressHold since tap hold⟩
    · rw [poll, if_neg hdue]
      exact ⟨none, rfl, .keep _⟩

/-- An interrupt is a turn of each key, and what it fires is for that key. -/
theorem turn_interrupt (presser key : Key) (phase : Phase) :
    ∃ issued : Option Resolution,
      (interrupt presser key phase).2.map (·.value) = issued.map (key, ·) ∧
        Turn phase [] issued.toList (interrupt presser key phase).1 := by
  cases phase with
  | idle => exact ⟨none, rfl, .keep _⟩
  | held hold => exact ⟨none, rfl, .keep _⟩
  | tapped tap => exact ⟨none, rfl, .keep _⟩
  | pending since tap hold =>
    by_cases he : key = presser
    · rw [interrupt, if_pos he]
      exact ⟨none, rfl, .keep _⟩
    · rw [interrupt, if_neg he]
      exact ⟨some (.holdPressed hold), rfl, .pressHold since tap hold⟩

end Phase

theorem issuedFor_map (key other : Key) (issued : List Resolution) :
    issuedFor key (issued.map (other, ·)) = if other = key then issued else [] := by
  rw [issuedFor, List.filterMap_map]
  by_cases he : other = key <;> simp [he]

/-- A key finds its own resolution among those of all keys. -/
theorem issuedFor_filterMap (key : Key) (issued : Key → Option Resolution) :
    issuedFor key (Key.all.filterMap fun other => (issued other).map (other, ·)) =
      (issued key).toList := by
  -- a resolution carries the key that it is for, and every key comes up once
  have hown : (fun other => ((issued other).map (other, ·)).bind fun (other, resolution) =>
      if other = key then some resolution else none) =
      fun other => if decide (other = key) = true then issued other else none := by
    funext other
    by_cases he : other = key <;> cases issued other <;> simp [he]
  have honce : Key.all.filter (fun other => decide (other = key)) = [key] := by
    rw [List.filter_eq, List.count_eq_one_of_mem Key.nodup_all (Key.mem_all key)]
    rfl
  rw [issuedFor, List.filterMap_filterMap, hown, ← List.filterMap_filter, honce]
  cases h : issued key <;> simp [h]

namespace Machine

variable {machine : Machine} {key : Key}
  {step : Key → Phase → Phase × Option Fired}

theorem stepAll_phases : (machine.stepAll step).1.phases[key] = (step key machine.phases[key]).1 := by
  simp only [stepAll, Slots.getElem_map, Slots.getElem_ofFn]

theorem stepAll_fired : (machine.stepAll step).2 =
    Key.all.filterMap fun key => (step key machine.phases[key]).2 := by
  simp only [stepAll, Slots.toList_eq_map, Slots.getElem_ofFn, List.filterMap_map,
    Function.comp_def, Key.all]

/-- One step of all keys is a turn of each. -/
theorem turn_stepAll (h : ∀ key phase, ∃ issued : Option Resolution,
      (step key phase).2.map (·.value) = issued.map (key, ·) ∧
        Turn phase [] issued.toList (step key phase).1) :
    Turn machine.phases[key] [] (issuedFor key ((machine.stepAll step).2.map (·.value)))
      (machine.stepAll step).1.phases[key] := by
  choose issued hvalue hturn using fun key => h key machine.phases[key]
  rw [stepAll_phases, stepAll_fired, List.map_filterMap, funext hvalue, issuedFor_filterMap]
  exact hturn key

theorem release_value : (machine.release key).value =
    ({ machine with phases := machine.phases.set key machine.phases[key].release.1 },
      machine.phases[key].release.2) := by
  cases h : machine.phases[key] <;> rw [release, h]
  case idle | tapped => simp only [Phase.release, ← h, Slots.set_getElem_self, Logged.value_pure]
  case pending | held => simp only [Phase.release, Logged.value_bind, Logged.value_pure]

/-- An operation is a turn of each key, provided that it starts no decision for a key that is not
idle. -/
theorem turn_operate (operation : Operation)
    (h : operation.begun key = [] ∨ machine.phases[key] = .idle) :
    Turn machine.phases[key] (operation.begun key) (issuedFor key (machine.operate operation).2)
      (machine.operate operation).1.phases[key] := by
  cases operation with
  | start other tap hold now =>
    simp only [operate, Machine.start, Logged.value_bind, Logged.value_pure]
    by_cases he : other = key
    · subst he
      rw [Operation.begun, if_pos rfl] at h ⊢
      rw [h.resolve_left (List.cons_ne_nil _ _), Slots.getElem_set_self]
      exact .start tap hold now
    · rw [Operation.begun, if_neg he, Slots.getElem_set_ne _ he]
      exact .keep _
  | release other =>
    simp only [operate, release_value, issuedFor_map]
    by_cases he : other = key
    · subst he
      rw [if_pos rfl, Slots.getElem_set_self]
      exact Phase.turn_release _
    · rw [if_neg he, Slots.getElem_set_ne _ he]
      exact .keep _
  | poll now =>
    simp only [operate, poll]
    exact turn_stepAll (Phase.turn_poll machine.threshold now)
  | interrupt presser =>
    cases hp : machine.policy with
    | holdOnOtherKeyPress =>
      simp only [operate, interrupt, hp]
      exact turn_stepAll (Phase.turn_interrupt presser)
    | timeoutOnly =>
      simp only [operate, interrupt, hp]
      exact .keep _

end Machine

end TapHold

end Keystroke
