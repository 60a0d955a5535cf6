import Keystroke.Proofs.Debounce.Runs

/-!
# Cells in fixed room

A device keeps the count and the start of a change in fields of their own and says with a flag
whether there is one, so that a start outlasts its change. Such a cell samples like the one that it
stands for (`Fixed.cell_sample`), and with the same edges on any samples (`Fixed.cell_after`,
`Fixed.answers_eq`).
-/

namespace Keystroke

/-- A cell in fixed room. Without a change, the start is a stale one. -/
structure Cell.Fixed where
  stable : Bool := false
  changing : Bool := false
  count : UInt8 := 0
  since : Tick := 0
  deriving DecidableEq, Repr

namespace Cell.Fixed

/-- The cell that a fixed one stands for. -/
def cell (fixed : Fixed) : Cell where
  stable := fixed.stable
  change := if fixed.changing then some ⟨fixed.count, fixed.since⟩ else none

def cancel (fixed : Fixed) : Fixed := { fixed with changing := false, count := 0 }

/-- Starts a change unless one is in progress. -/
def start (fixed : Fixed) (now : Tick) : Fixed :=
  if fixed.changing then fixed else { fixed with changing := true, count := 0, since := now }

/-- Counts one more sample, as far as a byte goes. -/
def tally (fixed : Fixed) : Fixed :=
  { fixed with count := if fixed.count < 255 then fixed.count + 1 else fixed.count }

def isSettled (fixed : Fixed) (policy : DebouncePolicy) (now : Tick) : Bool :=
  match policy with
  | .samples count => max count 1 ≤ fixed.count
  | .ticks count => count ≤ elapsed now fixed.since

/-- One raw sample of a key: the state after it and the accepted edge, if any. -/
def sample (policy : DebouncePolicy) (fixed : Fixed) (raw : Bool) (now : Tick) :
    Fixed × Option Edge :=
  if raw = fixed.stable then (fixed.cancel, none)
  else
    let fixed := (fixed.start now).tally
    if fixed.isSettled policy now then ({ fixed.cancel with stable := raw }, some (.ofLevel raw))
    else (fixed, none)

variable {policy : DebouncePolicy} {fixed : Fixed} {raw : Bool} {now : Tick}

/-- The change that a sample goes into: the one in progress, or a new one without what is stale. -/
theorem extend_change (fixed : Fixed) (now : Tick) :
    Change.extend fixed.cell.change now =
      ⟨(fixed.start now).tally.count, (fixed.start now).tally.since⟩ := by
  rw [start]
  cases h : fixed.changing with
  | true => simp only [cell, h, if_true, Change.extend, tally]
  | false =>
    simp only [cell, h, Bool.false_eq_true, if_false, Change.extend, tally]
    rfl

theorem changing_tally_start (fixed : Fixed) (now : Tick) :
    (fixed.start now).tally.changing = true := by
  rw [start]
  split
  · next h => exact h
  · rfl

theorem stable_tally_start (fixed : Fixed) (now : Tick) :
    (fixed.start now).tally.stable = fixed.stable := by
  rw [start]
  split <;> rfl

/-- Whether a byte counts enough samples is decided on bytes. -/
theorem max_one_le_iff {n count : UInt8} : max n 1 ≤ count ↔ max n.toNat 1 ≤ count.toNat := by
  have hmax : (max n 1).toNat = max n.toNat 1 := by
    change (if n ≤ 1 then (1 : UInt8) else n).toNat = _
    split
    · next h => exact (Nat.max_eq_right (UInt8.le_iff_toNat_le.mp h)).symm
    · next h =>
      rw [UInt8.le_iff_toNat_le] at h
      exact (Nat.max_eq_left (Nat.le_of_not_le h)).symm
  rw [UInt8.le_iff_toNat_le, hmax]

theorem isSettled_eq_accepts (policy : DebouncePolicy) (fixed : Fixed) (now : Tick) :
    fixed.isSettled policy now = policy.accepts ⟨fixed.count, fixed.since⟩ now := by
  cases policy with
  | samples count => exact decide_eq_decide.mpr max_one_le_iff
  | ticks count => rfl

/-- A fixed cell samples like the cell that it stands for. -/
theorem cell_sample (policy : DebouncePolicy) (fixed : Fixed) (raw : Bool) (now : Tick) :
    fixed.cell.sample policy raw now =
      ((fixed.sample policy raw now).1.cell, (fixed.sample policy raw now).2) := by
  rw [Cell.sample, sample]
  by_cases hraw : raw = fixed.stable
  · rw [if_pos hraw, if_pos (show raw = fixed.cell.stable from hraw)]
    rfl
  · rw [if_neg hraw, if_neg (show raw ≠ fixed.cell.stable from hraw)]
    simp only [extend_change, isSettled_eq_accepts]
    split
    · rfl
    · simp only [cell, changing_tally_start, stable_tally_start, if_true]

/-! ## Any samples -/

/-- The fixed cell after the samples of a key, the latest first. -/
def after (policy : DebouncePolicy) : List Sample → Fixed
  | [] => {}
  | sample :: earlier => ((after policy earlier).sample policy sample.raw sample.now).1

/-- Its answers to the samples of a key, the latest first. -/
def answers (policy : DebouncePolicy) : List Sample → List (Option Edge)
  | [] => []
  | sample :: earlier =>
    ((after policy earlier).sample policy sample.raw sample.now).2 :: answers policy earlier

theorem cell_after (policy : DebouncePolicy) (samples : List Sample) :
    (after policy samples).cell = Cell.after policy samples := by
  induction samples with
  | nil => rfl
  | cons sample earlier ih => rw [Cell.after, ← ih, cell_sample, after]

theorem answers_eq (policy : DebouncePolicy) (samples : List Sample) :
    answers policy samples = Cell.answers policy samples := by
  induction samples with
  | nil => rfl
  | cons sample earlier ih => rw [Cell.answers, ← ih, ← cell_after, cell_sample, answers]

end Cell.Fixed

end Keystroke
