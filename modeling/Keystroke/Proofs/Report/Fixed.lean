import Mathlib
import Keystroke.Proofs.Buffer
import Keystroke.Proofs.Report

/-!
# Reports in fixed room

A device keeps a report in a `Buffer` with a slot for every code that its keys can chord at once, and
compares two reports slot by slot. That comes to the same as the list of codes: codes do not
repeat, so there is always a slot left for one more (`size_lt_capacity`), and a slot that is not in
use is empty, whatever the reports before were, so that equal codes are equal slots
(`Fixed.Holds.eq_iff`).
-/

namespace Keystroke

namespace Report

/-- A change of a report. -/
inductive Edit where
  | insert (code : KeyCode)
  | clear
  deriving DecidableEq, Repr

/-- The report after some edits, the latest first. -/
def after : List Edit → Report
  | [] | .clear :: _ => {}
  | .insert code :: earlier => ((after earlier).insert code).1

/-- The codes inserted since the last clear, in order and with their repeats. -/
def inserted : List Edit → List KeyCode
  | [] | .clear :: _ => []
  | .insert code :: earlier => inserted earlier ++ [code]

variable {report other : Report} {code : KeyCode}

theorem insert_of_mem (h : code ∈ report.codes) : report.insert code = (report, false) := by
  simp [insert, contains, h]

theorem insert_of_notMem (h : code ∉ report.codes) :
    report.insert code = (⟨report.codes ++ [code]⟩, true) := by
  simp [insert, contains, h]

theorem nodup_insert (h : report.codes.Nodup) (code : KeyCode) :
    (report.insert code).1.codes.Nodup := by
  by_cases hm : code ∈ report.codes
  · rwa [insert_of_mem hm]
  · rw [insert_of_notMem hm]
    exact List.nodup_append_comm.mp (List.nodup_cons.mpr ⟨hm, h⟩)

/-- There is room for one more code, since there are fewer codes than slots. -/
theorem size_lt_capacity (h : report.codes.Nodup) (hm : code ∉ report.codes) :
    report.size < capacity := by
  -- there are more slots than codes, and this code is not in any of them
  have hsub : List.Subperm (code :: report.codes) KeyCode.all :=
    List.subperm_of_subset (List.nodup_cons.mpr ⟨hm, h⟩) fun _ _ => KeyCode.mem_all _
  exact Nat.lt_of_lt_of_le hsub.length_le (by decide)

theorem after_eq_insertAll (history : List Edit) :
    after history = ({} : Report).insertAll (inserted history) := by
  induction history with
  | nil => rfl
  | cons edit earlier ih =>
    cases edit with
    | insert code =>
      rw [after, ih, inserted, insertAll, insertAll, List.foldl_append]
      rfl
    | clear => rfl

/-- The codes of a report are those inserted since the last clear, each where it came first. -/
theorem codes_after (history : List Edit) :
    (after history).codes = (inserted history).eraseDups := by
  rw [after_eq_insertAll, codes_insertAll]
  simp

theorem nodup_after (history : List Edit) : (after history).codes.Nodup := by
  induction history with
  | nil => exact List.nodup_nil
  | cons edit earlier ih =>
    cases edit with
    | insert code => exact nodup_insert ih code
    | clear => exact List.nodup_nil

/-! ## The same in fixed room -/

/-- A report in fixed room. A slot that is not in use is meant to be empty. -/
abbrev Fixed := Buffer capacity (Option KeyCode)

namespace Fixed

def empty : Fixed := Buffer.blank none

/-- The codes in the slots that are in use. -/
def codes (fixed : Fixed) : List KeyCode := fixed.contents.reduceOption

/-- Adds a code that is not there yet. There is no result if no slot is left for it. -/
def insert (fixed : Fixed) (code : KeyCode) : Option (Fixed × Bool) :=
  if fixed.codes.contains code then some (fixed, false)
  else (fixed.push? (some code)).map (·, true)

def insertAll (fixed : Fixed) (codes : List KeyCode) : Option Fixed :=
  codes.foldlM (fun fixed code => (fixed.insert code).map (·.1)) fixed

/-- The fixed report after some edits, the latest first; to clear it is to start anew. -/
def after : List Edit → Option Fixed
  | [] => some empty
  | .insert code :: earlier => do
    let (fixed, _) ← (← after earlier).insert code
    pure fixed
  | .clear :: earlier => do
    let _ ← after earlier
    pure empty

/-- A fixed report holds the codes of a report, and nothing in its other slots. -/
structure Holds (fixed : Fixed) (report : Report) : Prop where
  contents : fixed.contents = report.codes.map some
  unused : ∀ i : Fin capacity, fixed.size ≤ i → fixed.slots[i] = none

variable {fixed other : Fixed} {report report' : Report} {code : KeyCode}

theorem Holds.empty : empty.Holds {} :=
  ⟨Buffer.contents_blank none, fun i _ => Slots.getElem_fill none i⟩

theorem Holds.codes_eq (H : fixed.Holds report) : fixed.codes = report.codes := by
  rw [codes, H.contents]
  simp [List.reduceOption]

theorem Holds.size_eq (H : fixed.Holds report) : fixed.size = report.size := by
  rw [← fixed.length_contents, H.contents, List.length_map]
  rfl

/-- Inserting never runs out of room. -/
theorem Holds.insert (H : fixed.Holds report) (hn : report.codes.Nodup) (code : KeyCode) :
    ∃ fixed', fixed.insert code = some (fixed', (report.insert code).2) ∧
      fixed'.Holds (report.insert code).1 := by
  by_cases hm : code ∈ report.codes
  · refine ⟨fixed, ?_, ?_⟩
    · rw [Fixed.insert, H.codes_eq, insert_of_mem hm]
      simp [hm]
    · rwa [insert_of_mem hm]
  · have hroom : fixed.size < capacity := H.size_eq ▸ size_lt_capacity hn hm
    obtain ⟨pushed, hpushed, hcontents, hslots⟩ := Buffer.push?_eq_some hroom (some code)
    rw [insert_of_notMem hm]
    refine ⟨pushed, ?_, ?_, fun i hi => ?_⟩
    · rw [Fixed.insert, H.codes_eq, hpushed]
      simp [hm]
    · rw [hcontents, H.contents, List.map_append]
      rfl
    · have hsize : pushed.size = fixed.size + 1 := by simpa using congrArg List.length hcontents
      rw [hslots i hi]
      exact H.unused i (by omega)

theorem Holds.insertAll (H : fixed.Holds report) (hn : report.codes.Nodup) (codes : List KeyCode) :
    ∃ fixed', fixed.insertAll codes = some fixed' ∧ fixed'.Holds (report.insertAll codes) := by
  induction codes generalizing fixed report with
  | nil => exact ⟨fixed, rfl, H⟩
  | cons code codes ih =>
    obtain ⟨next, hnext, hholds⟩ := H.insert hn code
    obtain ⟨last, hlast, hlasts⟩ := ih hholds (nodup_insert hn code)
    refine ⟨last, ?_, hlasts⟩
    rw [Fixed.insertAll, List.foldlM_cons, hnext]
    exact hlast

/-- No edits exhaust the room of a fixed report. -/
theorem after_eq_some (history : List Edit) :
    ∃ fixed, after history = some fixed ∧ fixed.Holds (Report.after history) := by
  induction history with
  | nil => exact ⟨empty, rfl, .empty⟩
  | cons edit earlier ih =>
    obtain ⟨fixed, hfixed, H⟩ := ih
    cases edit with
    | insert code =>
      obtain ⟨next, hnext, hholds⟩ := H.insert (nodup_after earlier) code
      refine ⟨next, ?_, hholds⟩
      simp only [after, hfixed, hnext, Option.bind_eq_bind, Option.bind_some, Option.pure_def]
    | clear =>
      refine ⟨empty, ?_, .empty⟩
      simp only [after, hfixed, Option.bind_eq_bind, Option.bind_some, Option.pure_def]

/-- Two fixed reports are the same slot by slot just if they hold the same codes. -/
theorem Holds.eq_iff {fixed' : Fixed} (H : fixed.Holds report) (H' : fixed'.Holds report') :
    fixed = fixed' ↔ report.codes = report'.codes := by
  constructor
  · rintro rfl
    exact H.codes_eq.symm.trans H'.codes_eq
  · intro h
    apply Buffer.ext_contents
    · rw [H.contents, H'.contents, h]
    · intro i hi
      have hi' : fixed'.size ≤ i := by rwa [H'.size_eq, size, ← h, ← size, ← H.size_eq]
      rw [H.unused i hi, H'.unused i hi']

end Fixed

end Report

end Keystroke
