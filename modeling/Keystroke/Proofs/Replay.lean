import Keystroke.Replay
import Keystroke.Proofs.Engine.Layers
import Keystroke.Proofs.Report
import Keystroke.Proofs.Trace
import Mathlib.Data.List.Chain

/-!
# Replay is the plain simulation

A `Recording` is simulated by looking up all levels anew at every tick and comparing each report
with the one before it. The replay sorts the rows, keeps its levels from tick to tick, takes the
rows that become due from the front of the list and asks the engine whether its report has changed;
`Plays` relates the two from tick to tick. The frames are enough to know every report
(`codes_eq_last_frame`).
-/

namespace Keystroke

namespace Playback

variable (playback : Playback) (now : Tick)

/-- The levels that are scanned at a tick. -/
def levelsAt : Levels := (playback.rest.takeWhile (·.tick ≤ now)).foldl setLevel playback.levels

theorem engine_step : (playback.step now).engine =
    (playback.engine.scan (playback.levelsAt now) now).value.1 := by
  rw [step]
  split <;> rfl

theorem levels_step : (playback.step now).levels = playback.levelsAt now := by
  rw [step]
  split <;> rfl

theorem rest_step : (playback.step now).rest = playback.rest.dropWhile (·.tick ≤ now) := by
  rw [step]
  split <;> rfl

theorem frames_step : (playback.step now).frames.toList = playback.frames.toList ++
    let scanned := (playback.engine.scan (playback.levelsAt now) now).value
    if scanned.2.changed then
      [{ tick := now, config := scanned.1.config, layers := scanned.1.layers,
         codes := scanned.2.report.codes }]
    else [] := by
  rw [step]
  split
  · next h => simp only [levelsAt, h, if_true, Array.toList_push]
  · next h => simp only [levelsAt, h, if_false, List.append_nil, Bool.false_eq_true]

end Playback

/-- Rows recorded in any order, and the engine they are to be played through. -/
structure Recording where
  engine : Engine
  rows : List TraceEvent

namespace Recording

/-- The engine before a tick: it was scanned once in each tick before. -/
def before (recording : Recording) : Nat → Engine
  | 0 => recording.engine
  | tick + 1 => ((recording.before tick).scan
      (Trace.levelsAt recording.rows (.ofNat tick)) (.ofNat tick)).value.1

/-- The codes reported at a tick. -/
def codes (recording : Recording) (tick : Nat) : List KeyCode :=
  ((recording.before tick).scan
    (Trace.levelsAt recording.rows (.ofNat tick)) (.ofNat tick)).value.2.report.codes

/-- The codes reported at the tick before; none before the first tick. -/
def previousCodes (recording : Recording) : Nat → List KeyCode
  | 0 => []
  | tick + 1 => recording.codes tick

/-- The frame of a tick, if the codes differ from those of the tick before. -/
def frame? (recording : Recording) (tick : Nat) : Option Frame :=
  if recording.codes tick = recording.previousCodes tick then none
  else some {
    tick := .ofNat tick
    config := (recording.before (tick + 1)).config
    layers := (recording.before (tick + 1)).layers
    codes := recording.codes tick }

/-- The frames of the first ticks. -/
def frames (recording : Recording) (count : Nat) : List Frame :=
  (List.range count).filterMap recording.frame?

variable {recording : Recording} {tick count : Nat} {frame : Frame}

/-! ## The frames -/

theorem frames_succ (recording : Recording) (count : Nat) :
    recording.frames (count + 1) = recording.frames count ++ (recording.frame? count).toList := by
  rw [frames, List.range_succ, List.filterMap_append, ← frames]
  cases h : recording.frame? count <;> simp [h]

theorem of_frame?_eq_some (h : recording.frame? tick = some frame) :
    frame.tick = .ofNat tick ∧ frame.codes = recording.codes tick ∧
      recording.codes tick ≠ recording.previousCodes tick := by
  rw [frame?] at h
  split at h
  · cases h
  · next hne =>
    cases h
    exact ⟨rfl, rfl, hne⟩

theorem codes_of_frame?_eq_none (h : recording.frame? tick = none) :
    recording.codes tick = recording.previousCodes tick := by
  rw [frame?] at h
  split at h
  · next he => exact he
  · cases h

theorem tick_of_mem_frames (h : frame ∈ recording.frames count) (hcount : count ≤ UInt32.size) :
    frame.tick.toNat < count := by
  obtain ⟨tick, htick, hframe⟩ := List.mem_filterMap.mp h
  have htick := List.mem_range.mp htick
  rw [(of_frame?_eq_some hframe).1, UInt32.toNat_ofNat_of_lt' (by omega)]
  exact htick

/-- The codes before a tick are those of the last frame before it. -/
theorem previousCodes_eq_last_frame (recording : Recording) (count : Nat) :
    recording.previousCodes count =
      ((recording.frames count).getLast?.map Frame.codes).getD [] := by
  induction count with
  | zero => rfl
  | succ count ih =>
    rw [frames_succ]
    change recording.codes count = _
    cases h : recording.frame? count with
    | none => rw [codes_of_frame?_eq_none h, ih, Option.toList_none, List.append_nil]
    | some frame =>
      rw [← (of_frame?_eq_some h).2.1, Option.toList_some, List.getLast?_concat]
      rfl

theorem pairwise_frames (recording : Recording) (hcount : count ≤ UInt32.size) :
    (recording.frames count).Pairwise fun frame later => frame.tick < later.tick := by
  induction count with
  | zero => exact .nil
  | succ count ih =>
    rw [frames_succ, List.pairwise_append]
    refine ⟨ih (by omega), ?_, fun frame hframe later hlater => ?_⟩
    · cases recording.frame? count <;> simp
    · have hbefore := tick_of_mem_frames hframe (by omega)
      have hlater := (of_frame?_eq_some (Option.mem_toList.mp hlater)).1
      rw [UInt32.lt_iff_toNat_lt, hlater, UInt32.toNat_ofNat_of_lt' (by omega)]
      exact hbefore

theorem isChain_frames (recording : Recording) (count : Nat) :
    (recording.frames count).IsChain fun frame next => frame.codes ≠ next.codes := by
  induction count with
  | zero => exact .nil
  | succ count ih =>
    rw [frames_succ, List.isChain_append]
    refine ⟨ih, ?_, fun frame hframe next hnext => ?_⟩
    · cases recording.frame? count <;> simp
    · have hprevious := previousCodes_eq_last_frame recording count
      rw [Option.mem_def.mp hframe] at hprevious
      have hnext : recording.frame? count = some next := by
        cases h : recording.frame? count with
        | none => simp [h] at hnext
        | some found => simpa [h] using hnext
      obtain ⟨-, hcodes, hne⟩ := of_frame?_eq_some hnext
      rw [hcodes]
      intro he
      exact hne (he.symm.trans hprevious.symm)

theorem filter_frames (recording : Recording) (htick : tick < count)
    (hcount : count ≤ UInt32.size) :
    (recording.frames count).filter (·.tick.toNat ≤ tick) = recording.frames (tick + 1) := by
  induction count with
  | zero => cases htick
  | succ count ih =>
    by_cases he : tick = count
    · subst he
      apply List.filter_eq_self.mpr
      intro frame hframe
      have hbefore := tick_of_mem_frames hframe hcount
      exact decide_eq_true (by omega)
    · have hlate : (recording.frame? count).toList.filter (·.tick.toNat ≤ tick) = [] := by
        apply List.filter_eq_nil_iff.mpr
        intro frame hframe
        rw [(of_frame?_eq_some (Option.mem_toList.mp hframe)).1,
          UInt32.toNat_ofNat_of_lt' (by omega), decide_eq_true_eq]
        omega
      rw [frames_succ, List.filter_append, hlate, List.append_nil]
      exact ih (by omega) (by omega)

/-- The frames lose nothing: the codes of a tick are those of the last frame up to it. -/
theorem codes_eq_last_frame (recording : Recording) (htick : tick < count)
    (hcount : count ≤ UInt32.size) : recording.codes tick =
      (((recording.frames count).filter (·.tick.toNat ≤ tick)).getLast?.map Frame.codes).getD
        [] := by
  rw [filter_frames recording htick hcount]
  exact previousCodes_eq_last_frame recording (tick + 1)

/-! ## The replay -/

theorem lastReport_before (h : recording.engine.lastReport = {}) (tick : Nat) :
    (recording.before tick).lastReport.codes = recording.previousCodes tick := by
  cases tick with
  | zero => exact congrArg Report.codes h
  | succ tick => exact congrArg Report.codes (Engine.lastReport_feed (Engine.feed_levels ..))

theorem changed_iff (h : recording.engine.lastReport = {}) (tick : Nat) :
    ((recording.before tick).scan (Trace.levelsAt recording.rows (.ofNat tick))
      (.ofNat tick)).value.2.changed = true ↔
        recording.codes tick ≠ recording.previousCodes tick := by
  rw [← lastReport_before h]
  exact Engine.changed_feed (Engine.feed_levels ..)

/-- The last of some rows for a key fixes its level. -/
theorem getElem_foldl_setLevel (rows : List TraceEvent) (levels : Levels) (key : Key) :
    (rows.foldl Playback.setLevel levels)[key] =
      (((rows.filter (·.key = key)).getLast?).map TraceEvent.pressed).getD levels[key] := by
  induction rows using List.reverseRecOn with
  | nil => rfl
  | append_singleton rows row ih =>
    rw [List.foldl_append, List.foldl_cons, List.foldl_nil, Playback.setLevel, Slots.getElem_set,
      List.filter_append]
    by_cases hkey : row.key = key
    · simp [hkey]
    · simp [hkey, ih]

/-- In order of ticks the rows before a tick come first. -/
theorem takeWhile_eq_filter {rows : List TraceEvent}
    (h : rows.Pairwise fun row other => row.tick ≤ other.tick) (tick : Nat) :
    rows.takeWhile (·.tick.toNat < tick) = rows.filter (·.tick.toNat < tick) := by
  induction rows with
  | nil => rfl
  | cons row rows ih =>
    obtain ⟨hfirst, hrest⟩ := List.pairwise_cons.mp h
    rw [List.takeWhile_cons, List.filter_cons]
    by_cases hrow : row.tick.toNat < tick
    · simp only [hrow, decide_true, if_true, ih hrest]
    · have hnone : rows.filter (·.tick.toNat < tick) = [] := by
        apply List.filter_eq_nil_iff.mpr
        intro other hm
        have hle := UInt32.le_iff_toNat_le.mp (hfirst other hm)
        rw [decide_eq_true_eq]
        omega
      simp only [hrow, decide_false, Bool.false_eq_true, if_false, hnone]

/-- The rows that a trace has before a tick set the levels of the tick before it. -/
theorem foldl_setLevel_eq_levelsAt (rows : List TraceEvent) (htick : tick < UInt32.size) :
    ((Trace.ofEvents rows).events.takeWhile (·.tick.toNat < tick + 1)).foldl Playback.setLevel
        (Slots.fill false) = Trace.levelsAt rows (.ofNat tick) := by
  have hsorted := Trace.pairwise_ofEvents rows
  ext key
  rw [getElem_foldl_setLevel, takeWhile_eq_filter hsorted, List.filter_filter,
    Slots.getElem_fill, (Trace.sameOrder_ofEvents rows).levelsAt_eq, Trace.levelsAt,
    Slots.getElem_ofFn, Trace.governing?_of_pairwise hsorted, Trace.due]
  have hdue : ∀ row : TraceEvent, (decide (row.key = key) && decide (row.tick.toNat < tick + 1)) =
      decide (row.key = key ∧ row.tick ≤ .ofNat tick) := by
    intro row
    rw [← Bool.decide_and, decide_eq_decide, UInt32.le_iff_toNat_le,
      UInt32.toNat_ofNat_of_lt' htick, Nat.lt_succ_iff]
  simp only [hdue]

/-- A replay has reached a tick of the simulation. -/
structure Plays (recording : Recording) (tick : Nat) (playback : Playback) : Prop where
  engine : playback.engine = recording.before tick
  levels : playback.levels = ((Trace.ofEvents recording.rows).events.takeWhile
    (·.tick.toNat < tick)).foldl Playback.setLevel (Slots.fill false)
  rest : playback.rest =
    (Trace.ofEvents recording.rows).events.dropWhile (·.tick.toNat < tick)
  frames : playback.frames.toList = recording.frames tick

theorem Plays.step {playback : Playback} (H : recording.Plays tick playback)
    (hfresh : recording.engine.lastReport = {}) (htick : tick < UInt32.size) :
    recording.Plays (tick + 1) (playback.step (.ofNat tick)) := by
  obtain ⟨events, hevents⟩ : ∃ events, events = (Trace.ofEvents recording.rows).events := ⟨_, rfl⟩
  have hlevels := foldl_setLevel_eq_levelsAt recording.rows htick
  have hplayed := H.levels
  have hrest := H.rest
  rw [← hevents] at hlevels hplayed hrest
  have hdue : ∀ row : TraceEvent, decide (row.tick ≤ .ofNat tick) =
      decide (row.tick.toNat < tick + 1) := by
    intro row
    rw [decide_eq_decide, UInt32.le_iff_toNat_le, UInt32.toNat_ofNat_of_lt' htick, Nat.lt_succ_iff]
  -- the rows that were played before are due at this tick, too
  have hearly : ∀ row ∈ events.takeWhile (·.tick.toNat < tick),
      decide (row.tick.toNat < tick + 1) = true := by
    intro row hm
    have hbefore := List.mem_takeWhile_imp hm
    simp only [decide_eq_true_eq] at hbefore ⊢
    omega
  have htake : events.takeWhile (·.tick.toNat < tick) ++
      playback.rest.takeWhile (·.tick ≤ .ofNat tick) =
        events.takeWhile (·.tick.toNat < tick + 1) := by
    simp only [hdue, hrest]
    rw [← List.takeWhile_append_of_pos hearly, List.takeWhile_append_dropWhile]
  have hdrop : playback.rest.dropWhile (·.tick ≤ .ofNat tick) =
      events.dropWhile (·.tick.toNat < tick + 1) := by
    simp only [hdue, hrest]
    rw [← List.dropWhile_append_of_pos hearly, List.takeWhile_append_dropWhile]
  have hnext : playback.levelsAt (.ofNat tick) =
      (events.takeWhile (·.tick.toNat < tick + 1)).foldl Playback.setLevel (Slots.fill false) := by
    rw [Playback.levelsAt, hplayed, ← List.foldl_append, htake]
  refine ⟨?_, ?_, ?_, ?_⟩
  · rw [Playback.engine_step, H.engine, hnext, hlevels]
    rfl
  · rw [Playback.levels_step, hnext, hevents]
  · rw [Playback.rest_step, hdrop, hevents]
  · rw [Playback.frames_step, H.frames, H.engine, hnext, hlevels, frames_succ]
    apply congrArg (recording.frames tick ++ ·)
    by_cases hcodes : recording.codes tick = recording.previousCodes tick
    · rw [if_neg ((changed_iff hfresh tick).not_left.mpr hcodes), frame?, if_pos hcodes]
      rfl
    · rw [if_pos ((changed_iff hfresh tick).mpr hcodes), frame?, if_neg hcodes]
      rfl

theorem Plays.run {playback : Playback} (H : recording.Plays tick playback)
    (hfresh : recording.engine.lastReport = {}) (hcount : tick + count ≤ UInt32.size) :
    recording.Plays (tick + count) (playback.run (.ofNat tick) count) := by
  induction count generalizing tick playback with
  | zero => exact H
  | succ count ih =>
    have hnow : UInt32.ofNat tick + 1 = UInt32.ofNat (tick + 1) := (UInt32.ofNat_add tick 1).symm
    have hnext := H.step hfresh (by omega)
    rw [Playback.run, hnow, ← Nat.succ_add_eq_add_succ]
    exact ih hnext (by omega)

theorem plays_start (recording : Recording) :
    recording.Plays 0 (.start recording.engine (.ofEvents recording.rows)) := by
  refine ⟨rfl, ?_, ?_, rfl⟩
  · simp only [Nat.not_lt_zero, decide_false]
    cases (Trace.ofEvents recording.rows).events <;> rfl
  · simp only [Nat.not_lt_zero, decide_false]
    cases h : (Trace.ofEvents recording.rows).events <;> exact h

/-- A trace of the rows is played like the simulation. -/
theorem replay_value (recording : Recording) (hfresh : recording.engine.lastReport = {})
    (last : Tick) : (replay recording.engine (.ofEvents recording.rows) last).value =
      (recording.before (last.toNat + 1), recording.frames (last.toNat + 1)) := by
  have hcount : 0 + (last.toNat + 1) ≤ UInt32.size := by
    have := last.toNat_lt_size
    omega
  have hplays := recording.plays_start.run hfresh hcount
  rw [Nat.zero_add] at hplays
  exact Prod.ext hplays.engine hplays.frames

/-! ## Other orders of the rows -/

section
variable {rows others : List TraceEvent} (H : Trace.SameOrder rows others) (engine : Engine)
include H

theorem before_congr (tick : Nat) :
    (Recording.mk engine rows).before tick = (Recording.mk engine others).before tick := by
  induction tick with
  | zero => rfl
  | succ tick ih => simp only [before, ih, H.levelsAt_eq]

theorem codes_congr (tick : Nat) :
    (Recording.mk engine rows).codes tick = (Recording.mk engine others).codes tick := by
  simp only [codes, before_congr H, H.levelsAt_eq]

theorem frames_congr (count : Nat) :
    (Recording.mk engine rows).frames count = (Recording.mk engine others).frames count := by
  apply List.filterMap_congr
  intro tick _
  have hprevious : (Recording.mk engine rows).previousCodes tick =
      (Recording.mk engine others).previousCodes tick := by
    cases tick with
    | zero => rfl
    | succ tick => exact codes_congr H engine tick
  simp only [frame?, codes_congr H, hprevious, before_congr H]

end

end Recording

/-- Replay is the plain simulation, and its frames lose nothing. A trace of rows in any order, played
through an engine at rest, leads to the engine and to the frames of the simulation that scans at each
tick the levels of the latest rows. So the ticks of the frames increase, neighbouring frames have
different codes and the report at any tick has the codes of the last frame up to it. The order of
the rows matters only within one tick and one key. -/
theorem replay_is_simulation (keymap : Keymap) (settings : Settings) (engine : Engine)
    (rows : List TraceEvent) (last : Tick) (h : Engine.new keymap settings = .ok engine) :
    let recording : Recording := ⟨engine, rows⟩
    let played := (replay engine (.ofEvents rows) last).value
    played = (recording.before (last.toNat + 1), recording.frames (last.toNat + 1)) ∧
    (played.2.Pairwise fun frame later => frame.tick < later.tick) ∧
    (played.2.IsChain fun frame next => frame.codes ≠ next.codes) ∧
    (∀ tick ≤ last, recording.codes tick.toNat =
      ((played.2.filter (·.tick ≤ tick)).getLast?.map Frame.codes).getD []) ∧
    ∀ others, Trace.SameOrder rows others →
      (replay engine (.ofEvents others) last).value = played := by
  intro recording played
  have hfresh : engine.lastReport = {} := by
    obtain ⟨config, rfl⟩ := Engine.new_eq_ok h
    rfl
  have hplayed : played = _ := recording.replay_value hfresh last
  have hcount : last.toNat + 1 ≤ UInt32.size := last.toNat_lt_size
  refine ⟨hplayed, ?_, ?_, fun tick htick => ?_, fun others hothers => ?_⟩
  · rw [hplayed]
    exact recording.pairwise_frames hcount
  · rw [hplayed]
    exact recording.isChain_frames _
  · have hlast := UInt32.le_iff_toNat_le.mp htick
    rw [hplayed]
    simp only [UInt32.le_iff_toNat_le]
    exact recording.codes_eq_last_frame (Nat.lt_succ_of_le hlast) hcount
  · rw [hplayed, (Recording.mk engine others).replay_value hfresh last,
      Recording.before_congr hothers, Recording.frames_congr hothers]

/-- Rows out of order, with two for one key in one tick of which the last one counts. -/
theorem replay_is_simulation_unordered :
    let keymap := Keymap.empty.set 0 Layer.base 3 (.emit .a)
    let rows : List TraceEvent := [⟨1, 3, 0⟩, ⟨0, 3, 0⟩, ⟨0, 3, 1⟩]
    let sorted : List TraceEvent := [⟨0, 3, 0⟩, ⟨0, 3, 1⟩, ⟨1, 3, 0⟩]
    ∃ engine, Engine.new keymap { debounceSamples := 1 } = .ok engine ∧
      Trace.SameOrder rows sorted ∧
      (replay engine (.ofEvents rows) 2).value.2 =
        [⟨0, 0, [Layer.base], [.a]⟩, ⟨1, 0, [Layer.base], []⟩] ∧
      (replay engine (.ofEvents sorted) 2).value = (replay engine (.ofEvents rows) 2).value ∧
      (2 : Tick) ≤ 2 ∧ (Recording.mk engine rows).codes 2 =
        (((replay engine (.ofEvents rows) 2).value.2.filter (·.tick ≤ 2)).getLast?.map
          Frame.codes).getD [] := by
  intro keymap rows sorted
  obtain ⟨engine, hnew⟩ : ∃ engine, Engine.new keymap { debounceSamples := 1 } = .ok engine :=
    ⟨_, rfl⟩
  have horder : Trace.SameOrder rows sorted := by
    intro tick key
    by_cases hzero : 0 = tick <;> by_cases hone : 1 = tick
    · exact absurd (hzero.trans hone.symm) (by decide)
    all_goals simp [rows, sorted, List.filter_cons, hzero, hone]
  have hframes : (Recording.mk engine rows).frames 3 =
      [⟨0, 0, [Layer.base], [.a]⟩, ⟨1, 0, [Layer.base], []⟩] := by
    cases hnew
    decide +kernel
  obtain ⟨hplayed, -, -, hcodes, hothers⟩ := replay_is_simulation keymap _ engine rows 2 hnew
  refine ⟨engine, hnew, horder, ?_, hothers sorted horder, by decide, hcodes 2 (by decide)⟩
  rw [hplayed]
  exact hframes

end Keystroke
