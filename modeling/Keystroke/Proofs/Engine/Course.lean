import Keystroke.Proofs.Engine.KeyStates

/-!
# The course of a run

A run followed move by move: `Engine.moments` lists some moves, each with the state that it is made
in, and `Engine.course` those of all cycles of a run.
-/

namespace Keystroke

/-- The key whose press a move handles. -/
def Move.pressed? : Move → Option Key
  | press key _ => some key
  | _ => none

/-- A move of a run and the state it is made in. -/
structure Moment where
  state : Engine
  move : Move

/-- The state that the move leads to. -/
def Moment.after (moment : Moment) : Engine := (moment.state.make moment.move).value

namespace Engine

/-- Some moves as they are made one after the other. -/
def moments (engine : Engine) : List Move → List Moment
  | [] => []
  | move :: moves => ⟨engine, move⟩ :: (engine.make move).value.moments moves

/-- The moves of the cycle that an input runs. -/
def movesOf (engine : Engine) (input : Input) : List Move :=
  match engine.cycleOf input with
  | some (edges, now) => Move.ofCycle edges now
  | none => []

/-- The moves of a run, cycle after cycle. -/
def course (engine : Engine) : List Input → List Moment
  | [] => []
  | input :: inputs => (engine.started input).moments (engine.movesOf input) ++
      (engine.feed input).value.1.course inputs

variable {engine : Engine} {input : Input} {edges : Edges} {now : Tick}

theorem moments_append (moves more : List Move) :
    engine.moments (moves ++ more) = engine.moments moves ++ (engine.play moves).moments more := by
  induction moves generalizing engine with
  | nil => rfl
  | cons move moves ih => rw [List.cons_append, moments, moments, ih, play_cons, List.cons_append]

theorem map_move_moments (engine : Engine) (moves : List Move) :
    (engine.moments moves).map (·.move) = moves := by
  induction moves generalizing engine with
  | nil => rfl
  | cons move moves ih => rw [moments, List.map_cons, ih]

theorem course_append (engine : Engine) (inputs more : List Input) :
    engine.course (inputs ++ more) = engine.course inputs ++ (engine.run inputs).course more := by
  induction inputs generalizing engine with
  | nil => rfl
  | cons input inputs ih =>
    rw [List.cons_append, course, course, ih, List.append_assoc]
    rfl

theorem movesOf_eq (h : engine.cycleOf input = some (edges, now)) :
    engine.movesOf input = Move.ofCycle edges now := by
  rw [movesOf, h]

/-- The moves of a run and of the cycle that follows it. -/
theorem course_concat (engine : Engine) (inputs : List Input) (input : Input) :
    (engine.course (inputs ++ [input])).map (·.move) =
      (engine.course inputs).map (·.move) ++ (engine.run inputs).movesOf input := by
  rw [course_append, List.map_append, course, course, List.append_nil, map_move_moments]

/-- What the moves of an input make of a key, the input makes of it. -/
theorem keyState_feed_eq_play (engine : Engine) (input : Input) (key : Key) :
    (engine.feed input).value.1.keyState key =
      ((engine.started input).play (engine.movesOf input)).keyState key := by
  cases hc : engine.cycleOf input with
  | none =>
    obtain ⟨config, rfl⟩ := eq_select_of_cycleOf hc
    rfl
  | some pair => rw [movesOf_eq hc, keyState_feed hc]

end Engine

end Keystroke
