import Keystroke.Debounce
import Keystroke.Trace

/-!
# The level of a key in a recording

Of the rows of a key that are due at a tick, the one of greatest tick decides its level, and the
last recorded one among several of that tick (`Trace.governing?`). That depends on the order of
the rows of one key and one tick alone (`SameOrder.governing?_eq`), and a trace, which sorts its
rows, keeps this order (`sameOrder_ofEvents`). In order of ticks the deciding row is simply the last
one (`governing?_of_pairwise`). What else a trace keeps of the rows is `sorts_ofEvents`.
-/

namespace Keystroke

namespace Trace

/-- The rows of a key up to a tick. -/
def due (rows : List TraceEvent) (key : Key) (now : Tick) : List TraceEvent :=
  rows.filter fun row => row.key = key ∧ row.tick ≤ now

/-- Those of the due rows that no due row is later than. -/
def latest (rows : List TraceEvent) (key : Key) (now : Tick) : List TraceEvent :=
  (due rows key now).filter fun row => ∀ other ∈ due rows key now, other.tick ≤ row.tick

/-- The row that decides the level of a key at a tick: of its rows up to that tick the one with the
greatest tick, and the last one if there are several with that tick. -/
def governing? (rows : List TraceEvent) (key : Key) (now : Tick) : Option TraceEvent :=
  (latest rows key now).getLast?

/-- The levels at a tick; a key without a row up to then is released. -/
def levelsAt (rows : List TraceEvent) (now : Tick) : Levels :=
  Slots.ofFn fun key => ((governing? rows key now).map TraceEvent.pressed).getD false

/-- The rows of each tick and key stand in the same order in both lists. -/
def SameOrder (rows others : List TraceEvent) : Prop :=
  ∀ (tick : Tick) (key : Key), rows.filter (fun row => row.tick = tick ∧ row.key = key) =
    others.filter fun row => row.tick = tick ∧ row.key = key

variable {rows others : List TraceEvent} {row : TraceEvent} {key : Key} {now : Tick}

theorem mem_due : row ∈ due rows key now ↔ row ∈ rows ∧ row.key = key ∧ row.tick ≤ now := by
  simp only [due, List.mem_filter, decide_eq_true_eq]

theorem mem_latest : row ∈ latest rows key now ↔
    row ∈ due rows key now ∧ ∀ other ∈ due rows key now, other.tick ≤ row.tick := by
  simp only [latest, List.mem_filter, decide_eq_true_eq]

/-- The latest rows are all the rows of their key and their tick. -/
theorem latest_eq_filter (h : row ∈ latest rows key now) :
    latest rows key now = rows.filter fun other => other.tick = row.tick ∧ other.key = key := by
  obtain ⟨hdue, hmax⟩ := mem_latest.mp h
  obtain ⟨-, -, hnow⟩ := mem_due.mp hdue
  rw [latest, due, List.filter_filter]
  apply List.filter_congr
  intro other hm
  rw [← Bool.decide_and, decide_eq_decide]
  constructor
  · rintro ⟨hlatest, hkey, hother⟩
    exact ⟨UInt32.le_antisymm (hmax other (mem_due.mpr ⟨hm, hkey, hother⟩)) (hlatest row hdue), hkey⟩
  · rintro ⟨htick, hkey⟩
    rw [htick]
    exact ⟨hmax, hkey, hnow⟩

/-! ## The order of the rows -/

theorem SameOrder.mem_iff (H : SameOrder rows others) : row ∈ rows ↔ row ∈ others := by
  have hrow := H row.tick row.key
  constructor
  · intro hm
    have hfilter : row ∈ rows.filter fun other => other.tick = row.tick ∧ other.key = row.key := by
      simp [hm]
    rw [hrow] at hfilter
    exact (List.mem_filter.mp hfilter).1
  · intro hm
    have hfilter : row ∈ others.filter fun other =>
        other.tick = row.tick ∧ other.key = row.key := by
      simp [hm]
    rw [← hrow] at hfilter
    exact (List.mem_filter.mp hfilter).1

theorem SameOrder.mem_latest_iff (H : SameOrder rows others) :
    row ∈ latest rows key now ↔ row ∈ latest others key now := by
  simp only [mem_latest, mem_due, H.mem_iff]

/-- Only the order of the rows of one key and one tick matters. -/
theorem SameOrder.governing?_eq (H : SameOrder rows others) (key : Key) (now : Tick) :
    governing? rows key now = governing? others key now := by
  have hlatest : latest rows key now = latest others key now := by
    cases h : latest rows key now with
    | nil =>
      symm
      apply List.eq_nil_iff_forall_not_mem.mpr
      intro row hm
      have hrow := H.mem_latest_iff.mpr hm
      rw [h] at hrow
      cases hrow
    | cons row more =>
      have hrow : row ∈ latest rows key now := h ▸ List.mem_cons_self
      rw [← h, latest_eq_filter hrow, latest_eq_filter (H.mem_latest_iff.mp hrow)]
      exact H row.tick key
  rw [governing?, governing?, hlatest]

theorem SameOrder.levelsAt_eq (H : SameOrder rows others) (now : Tick) :
    levelsAt rows now = levelsAt others now := by
  rw [levelsAt, levelsAt]
  congr 1
  funext key
  rw [H.governing?_eq]

/-! ## Sorted rows -/

section
variable (event other third : TraceEvent)

theorem tick_le_trans (h : decide (event.tick ≤ other.tick) = true)
    (h' : decide (other.tick ≤ third.tick) = true) : decide (event.tick ≤ third.tick) = true := by
  simp only [decide_eq_true_eq] at h h' ⊢
  exact UInt32.le_trans h h'

theorem tick_le_total :
    (decide (event.tick ≤ other.tick) || decide (other.tick ≤ event.tick)) = true := by
  simp only [Bool.or_eq_true, decide_eq_true_eq]
  exact UInt32.le_total event.tick other.tick

end

theorem pairwise_ofEvents (rows : List TraceEvent) :
    (ofEvents rows).events.Pairwise fun row other => row.tick ≤ other.tick := by
  have hsorted := List.pairwise_mergeSort tick_le_trans tick_le_total rows
  exact hsorted.imp of_decide_eq_true

/-- A trace keeps the order of the rows of one tick. -/
theorem filter_tick_ofEvents (rows : List TraceEvent) (tick : Tick) :
    (ofEvents rows).events.filter (fun row => row.tick = tick) =
      rows.filter fun row => row.tick = tick := by
  have hconstant : (rows.filter fun row => row.tick = tick).Pairwise
      fun row other => decide (row.tick ≤ other.tick) = true := by
    apply List.pairwise_of_forall_mem_list
    intro row hrow other hother
    simp only [List.mem_filter, decide_eq_true_eq] at hrow hother ⊢
    rw [hrow.2, hother.2]
    exact UInt32.le_refl tick
  have hsub := List.sublist_mergeSort tick_le_trans tick_le_total hconstant List.filter_sublist
  have hkept := hsub.filter fun row => decide (row.tick = tick)
  rw [List.filter_filter] at hkept
  simp only [Bool.and_self] at hkept
  have hlength := ((List.mergeSort_perm rows fun row other => row.tick ≤ other.tick).filter
    fun row => decide (row.tick = tick)).length_eq
  exact (hkept.eq_of_length hlength.symm).symm

theorem sameOrder_ofEvents (rows : List TraceEvent) : SameOrder rows (ofEvents rows).events := by
  intro tick key
  have htick := congrArg (List.filter fun row => decide (row.key = key))
    (filter_tick_ofEvents rows tick)
  simp only [List.filter_filter, ← Bool.decide_and, and_comm] at htick
  exact htick.symm

/-- In order of ticks, no row is later than the last one. -/
theorem tick_le_of_getLast? (h : rows.Pairwise fun row other => row.tick ≤ other.tick)
    (hlast : rows.getLast? = some row) : ∀ other ∈ rows, other.tick ≤ row.tick := by
  obtain ⟨earlier, rfl⟩ := List.getLast?_eq_some_iff.mp hlast
  intro other hm
  rcases List.mem_append.mp hm with hm | hm
  · exact (List.pairwise_append.mp h).2.2 other hm row List.mem_cons_self
  · rw [List.mem_singleton.mp hm]
    exact UInt32.le_refl _

/-- In order of ticks, the last of the due rows decides. -/
theorem governing?_of_pairwise (h : rows.Pairwise fun row other => row.tick ≤ other.tick)
    (key : Key) (now : Tick) : governing? rows key now = (due rows key now).getLast? := by
  have hdue : (due rows key now).Pairwise fun row other => row.tick ≤ other.tick :=
    h.sublist List.filter_sublist
  rw [governing?, latest]
  cases hlast : (due rows key now).getLast? with
  | none =>
    rw [List.getLast?_eq_none_iff.mp hlast]
    rfl
  | some row =>
    have hmax := tick_le_of_getLast? hdue hlast
    obtain ⟨earlier, hsplit⟩ := List.getLast?_eq_some_iff.mp hlast
    rw [hsplit] at hmax ⊢
    have hkept : [row].filter (fun row' => ∀ other ∈ earlier ++ [row], other.tick ≤ row'.tick) =
        [row] := List.filter_cons_of_pos (decide_eq_true hmax)
    rw [List.filter_append, hkept, List.getLast?_concat]

/-! ## What a trace holds -/

/-- The trace has these events and no others, in order of their ticks and those of one tick in their
own order; its last tick is the greatest one. -/
structure Sorts (trace : Trace) (events : List TraceEvent) : Prop where
  perm : trace.events.Perm events
  ordered : trace.events.Pairwise fun event other => event.tick ≤ other.tick
  stable : ∀ tick : Tick, trace.events.filter (fun event => event.tick = tick) =
    events.filter fun event => event.tick = tick
  lastTick : events = [] ∧ trace.lastTick = 0 ∨
    (∃ event ∈ events, event.tick = trace.lastTick) ∧ ∀ event ∈ events, event.tick ≤ trace.lastTick

theorem sorts_ofEvents (events : List TraceEvent) : (ofEvents events).Sorts events where
  perm := List.mergeSort_perm ..
  ordered := pairwise_ofEvents events
  stable := filter_tick_ofEvents events
  lastTick := by
    have hperm : (ofEvents events).events.Perm events := List.mergeSort_perm ..
    cases hlast : (ofEvents events).events.getLast? with
    | none =>
      have hempty := List.getLast?_eq_none_iff.mp hlast
      rw [hempty, List.nil_perm] at hperm
      exact .inl ⟨hperm, by rw [Trace.lastTick, hlast]; rfl⟩
    | some last =>
      have htick : (ofEvents events).lastTick = last.tick := by rw [Trace.lastTick, hlast]; rfl
      have hmax := tick_le_of_getLast? (pairwise_ofEvents events) hlast
      rw [htick]
      exact .inr ⟨⟨last, hperm.mem_iff.mp (List.mem_of_getLast? hlast), rfl⟩,
        fun event hm => hmax event (hperm.mem_iff.mpr hm)⟩

end Trace

end Keystroke
