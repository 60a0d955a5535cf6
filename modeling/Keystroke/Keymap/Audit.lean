import Keystroke.Event
import Keystroke.Keymap

/-!
# Keymap audit

Authoring mistakes that would leave keys dead or layers out of reach. `Keymap.problems` lists all of
them: config by config, the base layer first, then entry by entry in index order, and within an
entry the empty pair, the self-watching parts and the parts that target the base layer. A layer
action on an empty layer is a warning and no problem.
-/

namespace Keystroke

/-- An authoring mistake. -/
inductive Problem where
  | baseEmpty (config : Config)
  | pairEmpty (place : Place)
  | watchesItself (place : Place)
  | targetsBase (place : Place)
  deriving DecidableEq, Repr

def Problem.message : Problem → String
  | baseEmpty config =>
    "config " ++ toString config.val ++ ": upper layers are populated but the base layer is empty"
  | pairEmpty place => place.text ++ ": tap-hold with no tap and no hold"
  | watchesItself place => place.text ++ ": combined key watches itself"
  | targetsBase place => place.text ++ ": layer action targets the base layer"

/-- The basic action watches the key it is on. -/
def BasicAction.watches (action : BasicAction) (key : Key) : Bool :=
  match action with
  | .combined other _ _ => other = key
  | _ => false

namespace Keymap

/-- Some layer above base has an entry of its own. -/
def hasUpper (keymap : Keymap) (config : Config) : Bool :=
  Layer.all.any fun layer => layer ≠ Layer.base && !keymap.isLayerEmpty config layer

/-- The mistakes of one entry. -/
def entryProblems (action : Action) (place : Place) : List Problem :=
  (if action = .tapHold .noOp .noOp then [.pairEmpty place] else []) ++
  (action.parts.filter (·.watches place.key)).map (fun _ => .watchesItself place) ++
  (action.parts.filter (·.layer? = some Layer.base)).map (fun _ => .targetsBase place)

/-- The places of one config in index order. -/
def places (config : Config) : List Place :=
  Layer.all.flatMap fun layer => Key.all.map fun key => ⟨config, layer, key⟩

/-- The entry at a place. -/
def entryAt (keymap : Keymap) (place : Place) : Action :=
  keymap.lookup place.config place.layer place.key

/-- The mistakes of one config. -/
def configProblems (keymap : Keymap) (config : Config) : List Problem :=
  (if keymap.hasUpper config && keymap.isLayerEmpty config Layer.base then [.baseEmpty config]
    else []) ++
  (places config).flatMap fun place => entryProblems (keymap.entryAt place) place

/-- All mistakes of a keymap. -/
def problems (keymap : Keymap) : List Problem := Config.all.flatMap keymap.configProblems

/-- The layer actions of an entry that lead to an empty layer other than base. -/
def entryWarnings (keymap : Keymap) (place : Place) : List Event :=
  ((keymap.entryAt place).parts.filterMap BasicAction.layer?).filterMap fun layer =>
    if layer ≠ Layer.base && keymap.isLayerEmpty place.config layer
    then some (.emptyTarget place layer) else none

/-- The warnings for a whole keymap, in index order. -/
def warnings (keymap : Keymap) : List Event :=
  Config.all.flatMap fun config => (places config).flatMap keymap.entryWarnings

/-- Tells the log the warnings and answers with all mistakes, if there are any. -/
def validate (keymap : Keymap) : Logged (Except (List Problem) Unit) where
  value := if keymap.problems.isEmpty then .ok () else .error keymap.problems
  events := keymap.warnings

end Keymap

def Problem.listMessage (problems : List Problem) : String :=
  "; ".intercalate (problems.map Problem.message)

end Keystroke
