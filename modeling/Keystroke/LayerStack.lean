import Keystroke.Event

/-!
# The layer stack

The layers active above the base layer, the most recently activated first. The base layer is never
stored: it is active at all times and comes last in the order of precedence.
-/

namespace Keystroke

/-- The active layers above base, highest precedence first. -/
structure LayerStack where
  upper : List Layer := []
  deriving DecidableEq, Repr

namespace LayerStack

/-- Number of layers above the base layer. -/
def size (stack : LayerStack) : Nat := stack.upper.length

/-- Nothing is active above the base layer. -/
def isEmpty (stack : LayerStack) : Bool := stack.upper.isEmpty

/-- The base layer is always active. -/
def isActive (stack : LayerStack) (layer : Layer) : Bool :=
  layer = Layer.base || stack.upper.contains layer

/-- The active layers in order of precedence, the base layer last. -/
def order (stack : LayerStack) : List Layer := stack.upper ++ [Layer.base]

/-- The active layer of highest precedence. -/
def top (stack : LayerStack) : Layer := stack.upper.headD Layer.base

/-- Puts a layer on top. The answer is false, and nothing changes, if it was active already: a
layer keeps the precedence it has. -/
def activate (stack : LayerStack) (layer : Layer) : Logged (LayerStack × Bool) :=
  if stack.isActive layer then pure (stack, false)
  else do
    let stack : LayerStack := ⟨layer :: stack.upper⟩
    Logged.tell (.layerActivated layer stack.size)
    pure (stack, true)

/-- Takes a layer out wherever it sits. The answer is false, and nothing changes, if it was not on
the stack; the base layer never is. -/
def deactivate (stack : LayerStack) (layer : Layer) : Logged (LayerStack × Bool) :=
  if layer = Layer.base || !stack.upper.contains layer then pure (stack, false)
  else do
    let stack : LayerStack := ⟨stack.upper.erase layer⟩
    Logged.tell (.layerDeactivated layer stack.size)
    pure (stack, true)

end LayerStack

end Keystroke
