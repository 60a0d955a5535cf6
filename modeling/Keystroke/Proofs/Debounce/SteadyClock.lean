import Keystroke.Proofs.Debounce.Runs

/-!
# Debouncing on a steady clock

If a key is sampled at consecutive ticks, a run of `n` samples has lasted for `n - 1` ticks, so that
it does not matter which of the two a policy asks for. The two policies then keep the same cell,
and in the cell count and clock go together (`Cell.InStep`). No run outlives the byte that counts
it or the clock that times it, because a run is accepted when its `n`-th sample comes.
-/

namespace Keystroke

/-- The samples, the latest first, are taken at consecutive ticks of the clock of 32 bits. -/
def Sample.Steady (start : Tick) : List Sample → Prop
  | [] => True
  | sample :: earlier => sample.now = start + UInt32.ofNat earlier.length ∧ Steady start earlier

theorem Sample.Steady.of_suffix {start : Tick} {samples earlier : List Sample}
    (H : Sample.Steady start samples) (h : earlier <:+ samples) : Sample.Steady start earlier := by
  induction samples with
  | nil =>
    rw [List.suffix_nil.mp h]
    trivial
  | cons sample more ih =>
    rcases List.suffix_cons_iff.mp h with rfl | h
    · exact H
    · exact ih H.2 h

namespace Cell

variable {cell : Cell} {count : UInt8} {now start : Tick} {samples : List Sample}

/-- A run in progress is shorter than `count`, and by the tick of the next sample it has lasted for
as many ticks as it has samples. -/
def InStep (cell : Cell) (count : UInt8) (next : Tick) : Prop :=
  ∀ change, cell.change = some change → change.count.toNat < count.toNat ∧
    (elapsed next change.since).toNat = change.count.toNat

theorem inStep_of_no_change (h : cell.change = none) : cell.InStep count now := by
  intro change hchange
  cases h.symm.trans hchange

theorem elapsed_self (now : Tick) : elapsed now now = 0 := UInt32.sub_self now

theorem InStep.extend (H : cell.InStep count now) (h : count ≠ 0) :
    (Change.extend cell.change now).count.toNat =
        (elapsed now (Change.extend cell.change now).since).toNat + 1 ∧
      (Change.extend cell.change now).count.toNat ≤ count.toNat := by
  cases hchange : cell.change with
  | none =>
    have hpos : count.toNat ≠ 0 := fun he => h (UInt8.toNat_inj.mp he)
    change 1 = (elapsed now now).toNat + 1 ∧ 1 ≤ count.toNat
    rw [elapsed_self]
    exact ⟨rfl, Nat.one_le_iff_ne_zero.mpr hpos⟩
  | some change =>
    obtain ⟨hcount, helapsed⟩ := H change hchange
    have hbound := count.toNat_lt
    have hlt : change.count < 255 := by
      rw [UInt8.lt_iff_toNat_lt]
      change change.count.toNat < 255
      omega
    have hsucc : (change.count + 1).toNat = change.count.toNat + 1 := by
      rw [UInt8.toNat_add]
      change (change.count.toNat + 1) % 2 ^ 8 = _
      omega
    simp only [Change.extend, if_pos hlt, hsucc, helapsed]
    exact ⟨trivial, hcount⟩

/-- Both policies accept a run with its `count`-th sample. -/
theorem InStep.accepts_eq (H : cell.InStep count now) (h : count ≠ 0) :
    (DebouncePolicy.samples count).accepts (Change.extend cell.change now) now =
      (DebouncePolicy.ticks (count.toUInt32 - 1)).accepts (Change.extend cell.change now) now := by
  obtain ⟨hcount, -⟩ := H.extend h
  have hpos : count.toNat ≠ 0 := fun he => h (UInt8.toNat_inj.mp he)
  have hpred : (count.toUInt32 - 1).toNat = count.toNat - 1 := by
    rw [UInt32.toNat_sub_of_le, UInt8.toNat_toUInt32]
    · rfl
    · rw [UInt32.le_iff_toNat_le, UInt8.toNat_toUInt32]
      exact Nat.one_le_iff_ne_zero.mpr hpos
  simp only [DebouncePolicy.accepts, UInt32.le_iff_toNat_le, hpred]
  exact decide_eq_decide.mpr (by omega)

/-- A sample is the same to both policies. -/
theorem InStep.sample_eq (H : cell.InStep count now) (h : count ≠ 0) (raw : Bool) :
    cell.sample (.samples count) raw now =
      cell.sample (.ticks (count.toUInt32 - 1)) raw now := by
  simp only [Cell.sample, H.accepts_eq h]

/-- A run that is not accepted goes on in step. -/
theorem InStep.sample (H : cell.InStep count now) (h : count ≠ 0) (raw : Bool) :
    (cell.sample (.samples count) raw now).1.InStep count (now + 1) := by
  obtain ⟨hcount, hle⟩ := H.extend h
  unfold Cell.sample
  split
  · exact inStep_of_no_change rfl
  · simp only
    split
    · exact inStep_of_no_change rfl
    · next haccepts =>
      intro change hchange
      obtain rfl := Option.some.inj hchange
      simp only [DebouncePolicy.accepts, decide_eq_true_eq] at haccepts
      refine ⟨by omega, ?_⟩
      have hbound := count.toNat_lt
      have hnext : elapsed (now + 1) (Change.extend cell.change now).since =
          elapsed now (Change.extend cell.change now).since + 1 := by
        simp only [elapsed]
        grind
      rw [hnext, UInt32.toNat_add]
      change ((elapsed now (Change.extend cell.change now).since).toNat + 1) % 2 ^ 32 = _
      omega

/-- Two policies that agree on a steady clock keep the same cell and give the same answers. -/
theorem after_eq_of_steady (h : count ≠ 0) (H : Sample.Steady start samples) :
    (after (.samples count) samples).InStep count (start + UInt32.ofNat samples.length) ∧
      after (.samples count) samples = after (.ticks (count.toUInt32 - 1)) samples ∧
      answers (.samples count) samples = answers (.ticks (count.toUInt32 - 1)) samples := by
  induction samples with
  | nil => exact ⟨inStep_of_no_change rfl, rfl, rfl⟩
  | cons sample earlier ih =>
    obtain ⟨hnow, hearlier⟩ := H
    obtain ⟨hstep, hafter, hanswers⟩ := ih hearlier
    rw [← hnow] at hstep
    have hnext : start + UInt32.ofNat (sample :: earlier).length = sample.now + 1 := by
      rw [List.length_cons, UInt32.ofNat_add, hnow, UInt32.add_assoc]
      rfl
    refine ⟨?_, ?_, ?_⟩
    · rw [hnext]
      exact hstep.sample h sample.raw
    · rw [after, after, ← hafter, hstep.sample_eq h]
    · rw [answers, answers, ← hafter, hanswers, hstep.sample_eq h]

end Cell

namespace Debouncer

/-- Scans of the whole matrix at consecutive ticks, the latest first. -/
def scans (start : Tick) : List Levels → List Call
  | [] => []
  | levels :: earlier =>
    .sampleAll levels (start + UInt32.ofNat earlier.length) :: scans start earlier

theorem length_samples_scans (start : Tick) (rows : List Levels) (key : Key) :
    (samples key (scans start rows)).length = rows.length := by
  induction rows with
  | nil => rfl
  | cons levels earlier ih => exact congrArg (· + 1) ih

theorem steady_scans (start : Tick) (rows : List Levels) (key : Key) :
    Sample.Steady start (samples key (scans start rows)) := by
  induction rows with
  | nil => trivial
  | cons levels earlier ih =>
    refine ⟨?_, ih⟩
    change _ = start + UInt32.ofNat (samples key (scans start earlier)).length
    rw [length_samples_scans]

/-- A count of samples and the time they take are the same measure on a steady clock. Let one
debouncer ask for `count` samples, at least one, and the other for one tick less. If a key is
sampled at consecutive ticks, whatever is done to the other keys, both answer each of its samples
alike and agree on its level after every call. So scans of the whole matrix at consecutive ticks
give the same edges and levels. -/
theorem policies_agree_on_steady_clock (count : UInt8) (start : Tick) (h : count ≠ 0) :
    let bySamples : DebouncePolicy := .samples count
    let byTicks : DebouncePolicy := .ticks (count.toUInt32 - 1)
    (∀ (key : Key) (calls : List Call), Sample.Steady start (samples key calls) →
      answers bySamples key calls = answers byTicks key calls ∧
        ∀ earlier, earlier <:+ calls →
          (after bySamples earlier).isPressed key = (after byTicks earlier).isPressed key) ∧
    ∀ (earlier : List Levels) (levels : Levels),
      let now := start + UInt32.ofNat earlier.length
      let scanBySamples := (after bySamples (scans start earlier)).sampleAll levels now
      let scanByTicks := (after byTicks (scans start earlier)).sampleAll levels now
      scanBySamples.value.2 = scanByTicks.value.2 ∧
        ∀ key, scanBySamples.value.1.isPressed key = scanByTicks.value.1.isPressed key := by
  intro bySamples byTicks
  have hkey : ∀ (key : Key) (calls : List Call), Sample.Steady start (samples key calls) →
      answers bySamples key calls = answers byTicks key calls ∧
        ∀ earlier, earlier <:+ calls →
          (after bySamples earlier).isPressed key = (after byTicks earlier).isPressed key := by
    intro key calls hsteady
    refine ⟨?_, fun earlier hsuffix => ?_⟩
    · rw [(cell_and_answers _ key calls).2, (cell_and_answers _ key calls).2]
      exact (Cell.after_eq_of_steady h hsteady).2.2
    · have hearlier : Sample.Steady start (samples key earlier) :=
        hsteady.of_suffix (hsuffix.filterMap (Call.sample? key))
      rw [isPressed, isPressed, (cell_and_answers _ key earlier).1,
        (cell_and_answers _ key earlier).1, (Cell.after_eq_of_steady h hearlier).2.1]
  refine ⟨hkey, fun earlier levels => ⟨?_, fun key => ?_⟩⟩
  · ext key : 1
    obtain ⟨hanswers, -⟩ := hkey key _ (steady_scans start (levels :: earlier) key)
    exact (List.cons.inj hanswers).1
  · exact (hkey key _ (steady_scans start (levels :: earlier) key)).2 _ List.suffix_rfl

/-- A contact that bounces while the clock wraps is accepted with the third sample of a run, and
another key is sampled in between. -/
theorem policies_agree_on_steady_clock_wrap :
    let calls : List Call := [.sample 3 true 2, .sampleAll (Slots.fill true) 1, .sample 5 true 9,
      .sample 3 true 0, .sample 3 false 4294967295, .sample 3 true 4294967294]
    (3 : UInt8) ≠ 0 ∧ Sample.Steady 4294967294 (samples 3 calls) ∧
      answers (.samples 3) 3 calls = answers (.ticks 2) 3 calls ∧
      answers (.samples 3) 3 calls = [some .pressed, none, none, none, none] := by
  intro calls
  have hpos : (3 : UInt8) ≠ 0 := by decide
  have hsteady : Sample.Steady 4294967294 (samples 3 calls) := by
    refine ⟨?_, ?_, ?_, ?_, ?_, trivial⟩ <;> decide +kernel
  obtain ⟨hkey, -⟩ := policies_agree_on_steady_clock 3 4294967294 hpos
  exact ⟨hpos, hsteady, (hkey 3 calls hsteady).1, by decide +kernel⟩

end Debouncer

end Keystroke
