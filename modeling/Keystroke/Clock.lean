/-!
# The clock

Ticks count scan cycles in 32 bits and wrap around. Instants are compared through `elapsed` alone,
so that a wrap between two of them does not matter.
-/

namespace Keystroke

/-- An instant of the scan clock. -/
abbrev Tick := UInt32

/-- Ticks from `since` to `now`, correct across a wrap of the clock. -/
def elapsed (now since : Tick) : Tick := now - since

/-- Moving both instants by the same amount keeps their distance. -/
theorem elapsed_add_add (now since shift : Tick) :
    elapsed (now + shift) (since + shift) = elapsed now since := by
  simp only [elapsed]
  grind

/-- A change of one key's level. -/
inductive Edge where
  | pressed
  | released
  deriving DecidableEq, Repr

/-- The edge that leads to a level. -/
def Edge.ofLevel : Bool → Edge
  | true => .pressed
  | false => .released

/-- The level that an edge leads to. -/
def Edge.level : Edge → Bool
  | .pressed => true
  | .released => false

@[simp] theorem Edge.level_ofLevel (level : Bool) : (Edge.ofLevel level).level = level := by
  cases level <;> rfl

@[simp] theorem Edge.ofLevel_level (edge : Edge) : Edge.ofLevel edge.level = edge := by
  cases edge <;> rfl

def Edge.text : Edge → String
  | .pressed => "pressed"
  | .released => "released"

end Keystroke
