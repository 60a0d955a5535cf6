import Keystroke.Proofs.Engine.Deeds

/-!
# What is in a report

The end of a cycle builds its report anew (`assemble_eq`). It has the codes of all latched actions in
key order, each where it occurs first (`codes_feed`), so a code is reported just if some key has an
action with that code latched (`mem_codes_feed`). A report counts as changed if its codes are not
those of the report before it (`changed_feed`).
-/

namespace Keystroke

namespace Resolver

/-- The codes that a key has in the report. -/
def codesOf (resolver : Resolver) (key : Key) : List KeyCode :=
  (resolver.latched[key].map BasicAction.codes).getD []

/-- The report of what is latched. -/
def report (resolver : Resolver) : Report := ({} : Report).insertAll resolver.emitting

variable {resolver : Resolver} {key : Key} {action : BasicAction} {code : KeyCode}

theorem codesOf_of_latched (h : resolver.latched[key] = some action) :
    resolver.codesOf key = action.codes := by
  rw [codesOf, h]
  rfl

theorem codesOf_of_latched_none (h : resolver.latched[key] = none) : resolver.codesOf key = [] := by
  rw [codesOf, h]
  rfl

theorem mem_codesOf :
    code ∈ resolver.codesOf key ↔ ∃ action, resolver.latched[key] = some action ∧
      code ∈ action.codes := by
  rw [codesOf]
  cases resolver.latched[key] <;> simp

theorem emitting_eq (resolver : Resolver) :
    resolver.emitting = Key.all.flatMap resolver.codesOf := by
  rw [emitting, Slots.toList_eq_map, List.flatMap_map]
  rfl

/-- What is emitted while nothing is latched for a key is emitted by the other keys. -/
theorem emitting_of_latched_none (h : resolver.latched[key] = none) :
    resolver.emitting = (Key.all.filter (· ≠ key)).flatMap resolver.codesOf := by
  rw [emitting_eq]
  induction Key.all with
  | nil => rfl
  | cons other keys ih =>
    rw [List.flatMap_cons, ih]
    by_cases he : other = key
    · subst he
      simp [codesOf_of_latched_none h]
    · simp [he]

end Resolver

namespace Report

theorem ext_codes {report other : Report} (h : report.codes = other.codes) : report = other := by
  cases report
  cases other
  exact congrArg Report.mk h

/-- Codes are added at the end of a report, first occurrences only. -/
theorem codes_insertAll (report : Report) (codes : List KeyCode) :
    (report.insertAll codes).codes =
      report.codes ++ (codes.filter (· ∉ report.codes)).eraseDups := by
  induction codes generalizing report with
  | nil => simp [insertAll]
  | cons code codes ih =>
    change ((report.insert code).1.insertAll codes).codes = _
    rw [ih, insert]
    by_cases hm : code ∈ report.codes
    · simp [contains, hm]
    · -- the code is new, so that its repeats are dropped from the rest
      have hrest : codes.filter (· ∉ report.codes ++ [code]) =
          (codes.filter (· ∉ report.codes)).filter fun other => !(other == code) := by
        rw [List.filter_filter]
        refine List.filter_congr fun other _ => ?_
        by_cases he : other = code <;> simp [he]
      have hnew : (report.contains code) = false := by simpa [contains] using hm
      simp only [hnew, Bool.false_eq_true, if_false]
      rw [hrest, List.filter_cons_of_pos (by simpa using hm), List.eraseDups_cons,
        List.append_assoc, List.singleton_append]

end Report

theorem Resolver.codes_report (resolver : Resolver) :
    resolver.report.codes = (Key.all.flatMap resolver.codesOf).eraseDups := by
  rw [report, Report.codes_insertAll, emitting_eq]
  simp

theorem Assembler.foldl_add (assembler : Assembler) (codes : List KeyCode) :
    codes.foldl (fun assembler code => assembler.add (.emit code)) assembler =
      { assembler with current := assembler.current.insertAll codes } := by
  induction codes generalizing assembler with
  | nil => rfl
  | cons code codes ih =>
    rw [List.foldl_cons, ih]
    rfl

namespace Engine

/-- What the inputs of a list come back with: a cycle for each that runs one. -/
def cycles (engine : Engine) : List Input → List (Option Cycle)
  | [] => []
  | input :: inputs =>
    (engine.feed input).value.2 :: (engine.feed input).value.1.cycles inputs

theorem cycles_append (engine : Engine) (inputs more : List Input) :
    engine.cycles (inputs ++ more) = engine.cycles inputs ++ (engine.run inputs).cycles more := by
  induction inputs generalizing engine with
  | nil => rfl
  | cons input inputs ih =>
    rw [List.cons_append, cycles, ih, cycles, List.cons_append]
    rfl

/-- The end of a cycle: the report of what is latched is built anew and becomes the last one. -/
theorem assemble_eq (engine : Engine) : engine.assemble =
    ({ engine with assembler := ⟨engine.resolver.report, engine.resolver.report⟩ },
      ⟨engine.resolver.report, engine.resolver.report ≠ engine.lastReport⟩) := by
  simp only [assemble, Assembler.foldl_add]
  rfl

theorem codes_assemble (engine : Engine) :
    engine.collectRequest.assemble.2.report.codes =
      (Key.all.flatMap engine.collectRequest.assemble.1.resolver.codesOf).eraseDups := by
  rw [assemble_eq]
  exact Resolver.codes_report _

variable {engine : Engine} {input : Input} {cycle : Cycle} {code : KeyCode}

/-- A report is what is latched after its cycle, without repeats. -/
theorem codes_feed (h : (engine.feed input).value.2 = some cycle) :
    cycle.report.codes =
      (Key.all.flatMap (engine.feed input).value.1.resolver.codesOf).eraseDups := by
  cases hc : engine.cycleOf input with
  | none =>
    obtain ⟨config, rfl⟩ := eq_select_of_cycleOf hc
    cases h
  | some pair =>
    rw [feed_of_cycleOf hc] at h ⊢
    obtain rfl := Option.some.inj h
    exact codes_assemble _

theorem mem_codes_feed (h : (engine.feed input).value.2 = some cycle) :
    code ∈ cycle.report.codes ↔ ∃ (key : Key) (action : BasicAction),
      (engine.feed input).value.1.resolver.latched[key] = some action ∧ code ∈ action.codes := by
  simp [codes_feed h, Resolver.mem_codesOf, Key.mem_all]

/-! ## From one report to the next -/

theorem feed_levels (engine : Engine) (levels : Levels) (now : Tick) :
    (engine.feed (.levels levels now)).value.2 = some (engine.scan levels now).value.2 := rfl

theorem lastReport_play (engine : Engine) (moves : List Move) :
    (engine.play moves).lastReport = engine.lastReport := by
  apply play_of_carryOut
  intro engine deed
  cases deed <;> rfl

theorem lastReport_started (engine : Engine) (input : Input) :
    (engine.started input).lastReport = engine.lastReport := by
  cases input <;> rfl

theorem changed_assemble (engine : Engine) : engine.collectRequest.assemble.2.changed =
    decide (engine.collectRequest.assemble.2.report ≠ engine.lastReport) := rfl

theorem lastReport_feed (h : (engine.feed input).value.2 = some cycle) :
    (engine.feed input).value.1.lastReport = cycle.report := by
  cases hc : engine.cycleOf input with
  | none =>
    obtain ⟨config, rfl⟩ := eq_select_of_cycleOf hc
    cases h
  | some pair =>
    rw [feed_of_cycleOf hc] at h ⊢
    obtain rfl := Option.some.inj h
    rfl

theorem lastReport_feed_of_none (h : (engine.feed input).value.2 = none) :
    (engine.feed input).value.1.lastReport = engine.lastReport := by
  cases input with
  | edges | levels => cases h
  | select config => rfl

theorem changed_feed (h : (engine.feed input).value.2 = some cycle) :
    cycle.changed = true ↔ cycle.report.codes ≠ engine.lastReport.codes := by
  have hreport : cycle.changed = decide (cycle.report ≠ engine.lastReport) := by
    cases hc : engine.cycleOf input with
    | none =>
      obtain ⟨config, rfl⟩ := eq_select_of_cycleOf hc
      cases h
    | some pair =>
      rw [feed_of_cycleOf hc] at h
      obtain rfl := Option.some.inj h
      rw [changed_assemble, lastReport_play, lastReport_started]
  rw [hreport, decide_eq_true_eq]
  exact not_congr ⟨congrArg Report.codes, Report.ext_codes⟩

end Engine

end Keystroke
