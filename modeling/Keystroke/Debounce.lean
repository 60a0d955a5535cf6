import Keystroke.Event

/-!
# Debouncing

Each key owns one `Cell` and no cell reads another, so the filter does not depend on the order in
which keys are sampled. A cell holds the accepted level and, while a differing level is being
observed, how long that has lasted; a sample of the accepted level cancels a change in progress.
-/

namespace Keystroke

/-- When a new level is accepted. -/
inductive DebouncePolicy where
  /-- After this many consecutive samples, at least one. -/
  | samples (count : UInt8)
  /-- Once it has lasted for this many ticks since it was first seen. -/
  | ticks (count : Tick)
  deriving DecidableEq, Repr

/-- A run of consecutive samples that differ from the accepted level. Their count stops at the
largest byte. -/
structure Change where
  count : UInt8
  since : Tick
  deriving DecidableEq, Repr

/-- The run extended by one more sample at `now`; it starts with that sample if there was none. -/
def Change.extend (change : Option Change) (now : Tick) : Change :=
  match change with
  | none => ⟨1, now⟩
  | some change => ⟨if change.count < 255 then change.count + 1 else change.count, change.since⟩

/-- Whether a run is long enough at `now`. -/
def DebouncePolicy.accepts (policy : DebouncePolicy) (change : Change) (now : Tick) : Bool :=
  match policy with
  | samples count => max count.toNat 1 ≤ change.count.toNat
  | ticks count => count ≤ elapsed now change.since

/-- The debouncing state of one key. -/
structure Cell where
  stable : Bool := false
  change : Option Change := none
  deriving DecidableEq, Repr

/-- One raw sample of a key: the state after it and the accepted edge, if any. -/
def Cell.sample (policy : DebouncePolicy) (cell : Cell) (raw : Bool) (now : Tick) :
    Cell × Option Edge :=
  if raw = cell.stable then ({ cell with change := none }, none)
  else
    let change := Change.extend cell.change now
    if policy.accepts change now then (⟨raw, none⟩, some (.ofLevel raw))
    else ({ cell with change := some change }, none)

/-- Raw levels of the whole matrix; true is closed. -/
abbrev Levels := PerKey Bool

/-- The edges of one pass over the whole matrix. -/
abbrev Edges := PerKey (Option Edge)

/-- No key changes. -/
def Edges.none : Edges := Slots.fill Option.none

/-- The debouncing state of the whole matrix. -/
structure Debouncer where
  policy : DebouncePolicy
  cells : PerKey Cell
  deriving DecidableEq, Repr

namespace Debouncer

/-- Every key is released and at rest. -/
def new (policy : DebouncePolicy) : Debouncer := ⟨policy, Slots.fill {}⟩

/-- Forgets all levels and keeps the policy. -/
def reset (debouncer : Debouncer) : Debouncer := new debouncer.policy

/-- The accepted level of a key. -/
def isPressed (debouncer : Debouncer) (key : Key) : Bool := debouncer.cells[key].stable

private def logEdge (key : Key) (now : Tick) : Option Edge → List Event
  | some edge => [.debounced key edge now]
  | none => []

/-- Feeds one raw sample of one key. -/
def sample (debouncer : Debouncer) (key : Key) (raw : Bool) (now : Tick) :
    Logged (Debouncer × Option Edge) :=
  let (cell, edge) := debouncer.cells[key].sample debouncer.policy raw now
  { value := ({ debouncer with cells := debouncer.cells.set key cell }, edge)
    events := logEdge key now edge }

/-- Samples every key once. -/
def sampleAll (debouncer : Debouncer) (levels : Levels) (now : Tick) :
    Logged (Debouncer × Edges) :=
  let results := Slots.ofFn fun key : Key =>
    debouncer.cells[key].sample debouncer.policy levels[key] now
  let edges := results.map (·.2)
  { value := ({ debouncer with cells := results.map (·.1) }, edges)
    events := Key.all.flatMap fun key => logEdge key now edges[key] }

end Debouncer

end Keystroke
