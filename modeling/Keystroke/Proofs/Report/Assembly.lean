import Keystroke.Proofs.Engine.Layers
import Keystroke.Proofs.Report.Fixed

/-!
# The reports of a run

What the reports of a run are, and that a device which keeps the two reports of its assembler in
fixed room sends the same ones: it never runs out of slots, and comparing all slots tells it
whether a report has changed (`Assembler.Fixed.run_emissions`).
-/

namespace Keystroke

namespace Assembler

/-- An assembler whose two reports are kept in fixed room. -/
structure Fixed where
  current : Report.Fixed := .empty
  last : Report.Fixed := .empty

namespace Fixed

/-- Starts a cycle with no codes. -/
def start (assembler : Fixed) : Fixed := { assembler with current := .empty }

/-- Adds codes to the report of the cycle, if there is room. -/
def addAll (assembler : Fixed) (codes : List KeyCode) : Option Fixed := do
  pure { assembler with current := ← assembler.current.insertAll codes }

/-- Ends a cycle: its report becomes the last one. -/
def finish (assembler : Fixed) : Fixed × Report.Fixed :=
  ({ assembler with last := assembler.current }, assembler.current)

/-- The report of a cycle with some codes, and whether it differs from the last one in any slot. -/
def cycle (assembler : Fixed) (codes : List KeyCode) : Option (Fixed × Report.Fixed × Bool) := do
  let collected ← assembler.start.addAll codes
  let (finished, report) := collected.finish
  pure (finished, report, report ≠ assembler.last)

/-- The codes of the reports of some cycles, each with whether the report has changed. -/
def run (assembler : Fixed) : List (List KeyCode) → Option (List (List KeyCode × Bool))
  | [] => some []
  | codes :: rest => do
    let (next, report, changed) ← assembler.cycle codes
    let later ← next.run rest
    pure ((report.codes, changed) :: later)

end Fixed

end Assembler

namespace Engine

/-- What the latched actions emit at the end of each cycle of a run, in key order and with
repeats. -/
def emissions (engine : Engine) : List Input → List (List KeyCode)
  | [] => []
  | input :: inputs =>
    let after := (engine.feed input).value.1
    match (engine.feed input).value.2 with
    | some _ => after.resolver.emitting :: after.emissions inputs
    | none => after.emissions inputs

/-- The codes of the latest report, none if there was no cycle. -/
def lastCodes (cycles : List (Option Cycle)) : List KeyCode :=
  (cycles.reduceOption.getLast?.map (·.report.codes)).getD []

variable {engine : Engine} {input : Input} {inputs : List Input} {cycle : Cycle}

theorem report_feed (h : (engine.feed input).value.2 = some cycle) :
    cycle.report = (engine.feed input).value.1.resolver.report :=
  Report.ext_codes ((codes_feed h).trans (Resolver.codes_report _).symm)

theorem cycles_concat (engine : Engine) (inputs : List Input) (input : Input) :
    engine.cycles (inputs ++ [input]) =
      engine.cycles inputs ++ [((engine.run inputs).feed input).value.2] :=
  cycles_append engine inputs [input]

theorem lastReport_run (h : engine.lastReport = {}) (inputs : List Input) :
    (engine.run inputs).lastReport.codes = lastCodes (engine.cycles inputs) := by
  induction inputs using List.reverseRecOn with
  | nil => exact congrArg Report.codes h
  | append_singleton inputs input ih =>
    rw [run_concat, cycles_concat, lastCodes, List.reduceOption_append]
    cases hfeed : ((engine.run inputs).feed input).value.2 with
    | none =>
      rw [lastReport_feed_of_none hfeed, ih, lastCodes]
      simp
    | some cycle =>
      rw [lastReport_feed hfeed]
      simp

/-- In fixed room the reports of a run come out the same, and the room is never exhausted. -/
theorem run_emissions {assembler : Assembler.Fixed} (H : assembler.last.Holds engine.lastReport)
    (inputs : List Input) : assembler.run (engine.emissions inputs) =
      some ((engine.cycles inputs).reduceOption.map fun cycle =>
        (cycle.report.codes, cycle.changed)) := by
  induction inputs generalizing assembler engine with
  | nil => rfl
  | cons input inputs ih =>
    rw [emissions, cycles]
    cases hfeed : (engine.feed input).value.2 with
    | none =>
      rw [← lastReport_feed_of_none hfeed] at H
      exact ih H
    | some cycle =>
      obtain ⟨report, hreport, hholds⟩ := Report.Fixed.Holds.empty.insertAll List.nodup_nil
        (engine.feed input).value.1.resolver.emitting
      rw [← Resolver.report, ← report_feed hfeed] at hholds
      have hchanged : decide (report ≠ assembler.last) = cycle.changed := by
        rw [Bool.eq_iff_iff, decide_eq_true_eq, changed_feed hfeed]
        exact not_congr (hholds.eq_iff H)
      have hcycle : assembler.cycle (engine.feed input).value.1.resolver.emitting =
          some (⟨report, report⟩, report, cycle.changed) := by
        simp only [Assembler.Fixed.cycle, Assembler.Fixed.addAll, Assembler.Fixed.start, hreport,
          Assembler.Fixed.finish, Option.bind_eq_bind, Option.bind_some, Option.pure_def,
          ← hchanged]
        rfl
      have hlast : report.Holds (engine.feed input).value.1.lastReport := by
        rwa [lastReport_feed hfeed]
      have hrest := @ih _ ⟨report, report⟩ hlast
      simp only [Assembler.Fixed.run, hcycle, hrest, Option.bind_eq_bind, Option.bind_some,
        Option.pure_def, hholds.codes_eq, List.reduceOption_cons_of_some, List.map_cons]

/-- The account of the reports. A report has the codes inserted since it was last cleared, without
repeats and each where it came first, and whenever a code is new there is room for it. The report of
a cycle, whatever its edges, has the codes of all latched actions in key order without repeats, and
counts as changed just if its codes are not those of the cycle before. In fixed room all of this
comes out the same: no slot is missing, and slots that longer reports have used do not matter. -/
theorem reports_are_exact :
    (∀ history : List Report.Edit,
      let report := Report.after history
      report.codes = (Report.inserted history).eraseDups ∧ report.codes.Nodup ∧
        (∀ code, report.contains code = false → report.size < Report.capacity) ∧
        ∃ fixed, Report.Fixed.after history = some fixed ∧ fixed.codes = report.codes) ∧
    ∀ (keymap : Keymap) (settings : Settings) (engine : Engine) (inputs : List Input),
      Engine.new keymap settings = .ok engine →
      (∀ (input : Input) (cycle : Cycle),
        ((engine.run inputs).feed input).value.2 = some cycle →
          let after := ((engine.run inputs).feed input).value.1
          cycle.report.codes = (Key.all.flatMap after.resolver.codesOf).eraseDups ∧
            (cycle.changed = true ↔
              cycle.report.codes ≠ lastCodes (engine.cycles inputs))) ∧
      Assembler.Fixed.run {} (engine.emissions inputs) =
        some ((engine.cycles inputs).reduceOption.map fun cycle =>
          (cycle.report.codes, cycle.changed)) := by
  refine ⟨fun history => ?_, fun keymap settings engine inputs h => ?_⟩
  · have hnodup := Report.nodup_after history
    obtain ⟨fixed, hfixed, hholds⟩ := Report.Fixed.after_eq_some history
    refine ⟨Report.codes_after history, hnodup, fun code hcode => ?_, fixed, hfixed,
      hholds.codes_eq⟩
    exact Report.size_lt_capacity hnodup (by simpa [Report.contains] using hcode)
  · have hfresh : engine.lastReport = {} := by
      obtain ⟨config, rfl⟩ := new_eq_ok h
      rfl
    refine ⟨fun input cycle hcycle => ⟨codes_feed hcycle, ?_⟩, run_emissions ?_ inputs⟩
    · rw [changed_feed hcycle, lastReport_run hfresh]
    · rw [hfresh]
      exact Report.Fixed.Holds.empty

/-- A report that was cleared, and a chord that is let go while a key for one of its codes stays
down. -/
theorem reports_are_exact_shorter :
    let keymap := (Keymap.empty.set 0 Layer.base 3 (.basic (.chord (.pair .leftCtrl .a)))).set 0
      Layer.base 5 (.emit .a)
    let inputs : List Input := [.edges (((Slots.fill none).set 3 (some .pressed)).set 5
      (some .pressed)) 0]
    let input : Input := .edges ((Slots.fill none).set 3 (some .released)) 1
    let report := Report.after [.insert .b, .clear, .insert .a]
    report.contains .a = false ∧ report.size < Report.capacity ∧
    ∃ engine cycle, Engine.new keymap {} = .ok engine ∧
      ((engine.run inputs).feed input).value.2 = some cycle ∧
      lastCodes (engine.cycles inputs) = [.leftCtrl, .a] ∧ cycle.report.codes = [.a] ∧
      (cycle.changed = true ↔ cycle.report.codes ≠ lastCodes (engine.cycles inputs)) ∧
      Assembler.Fixed.run {} (engine.emissions inputs) =
        some ((engine.cycles inputs).reduceOption.map fun cycle =>
          (cycle.report.codes, cycle.changed)) := by
  intro keymap inputs input report
  obtain ⟨-, -, hroom, -⟩ := reports_are_exact.1 [.insert .b, .clear, .insert .a]
  obtain ⟨engine, hnew⟩ : ∃ engine, Engine.new keymap {} = .ok engine := ⟨_, rfl⟩
  obtain ⟨cycle, hcycle⟩ : ∃ cycle, ((engine.run inputs).feed input).value.2 = some cycle :=
    ⟨_, rfl⟩
  obtain ⟨hreports, hfixed⟩ := reports_are_exact.2 keymap {} engine inputs hnew
  obtain ⟨hcodes, hchanged⟩ := hreports input cycle hcycle
  refine ⟨rfl, hroom .a rfl, engine, cycle, hnew, hcycle, ?_, hcodes.trans ?_, hchanged, hfixed⟩
  · cases hnew
    decide +kernel
  · cases hnew
    decide +kernel

end Engine

end Keystroke
