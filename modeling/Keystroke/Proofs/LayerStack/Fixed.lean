import Keystroke.Proofs.Buffer
import Keystroke.Proofs.LayerStack

/-!
# Layer stacks in fixed room

A device keeps the active layers in a `Buffer` with one slot for each layer above base, the latest
at the end. A layer is taken out by moving those after it down, and clearing the stack leaves its
slots as they are. No calls exhaust the room, and the layers in use are those of the stack
(`Fixed.after_eq_some`).
-/

namespace Keystroke

namespace LayerStack

/-- A call that changes a layer stack. -/
inductive Call where
  | activate (layer : Layer)
  | deactivate (layer : Layer)
  | clear
  deriving DecidableEq, Repr

/-- The stack after some calls, the latest first. -/
def after : List Call → LayerStack
  | [] | .clear :: _ => {}
  | .activate layer :: earlier => ((after earlier).activate layer).value.1
  | .deactivate layer :: earlier => ((after earlier).deactivate layer).value.1

variable {stack : LayerStack} {layer : Layer}

theorem proper_after (calls : List Call) : (after calls).Proper := by
  induction calls with
  | nil => exact proper_empty
  | cons call earlier ih =>
    cases call with
    | activate layer => exact ih.activate layer
    | deactivate layer => exact ih.deactivate layer
    | clear => exact proper_empty

theorem not_isActive_iff :
    stack.isActive layer = false ↔ layer ≠ Layer.base ∧ layer ∉ stack.upper := by
  rw [← Bool.not_eq_true, isActive_iff, not_or]

theorem length_le_layerCount {layers : List Layer} (hn : layers.Nodup) :
    layers.length ≤ layerCount := by
  simpa using hn.length_le_card

/-- There is room for all layers above base. -/
theorem Proper.size_le (H : stack.Proper) : stack.size ≤ layerCount - 1 :=
  Nat.le_sub_one_of_lt (length_le_layerCount (List.nodup_cons.mpr ⟨H.base_notMem, H.nodup⟩))

theorem Proper.size_lt (H : stack.Proper) (h : stack.isActive layer = false) :
    stack.size < layerCount - 1 := by
  rw [not_isActive_iff] at h
  have hn : (layer :: Layer.base :: stack.upper).Nodup := by
    simp [H.nodup, H.base_notMem, h.1, h.2]
  exact Nat.le_sub_one_of_lt (length_le_layerCount hn)

/-! ## The same in fixed room -/

/-- A layer stack in fixed room, the latest layer at the end. -/
abbrev Fixed := Buffer (layerCount - 1) Layer

namespace Fixed

def empty : Fixed := Buffer.blank Layer.base

/-- Adds a layer that is not there yet. There is no result if no slot is left for it. -/
def activate (fixed : Fixed) (layer : Layer) : Option (Fixed × Bool) :=
  if layer = Layer.base || fixed.contents.contains layer then some (fixed, false)
  else (fixed.push? layer).map (·, true)

def deactivate (fixed : Fixed) (layer : Layer) : Fixed × Bool :=
  if layer = Layer.base then (fixed, false)
  else match fixed.contents.idxOf? layer with
    | none => (fixed, false)
    | some i => (fixed.remove i, true)

/-- The fixed stack after some calls, the latest first. -/
def after : List Call → Option Fixed
  | [] => some empty
  | .activate layer :: earlier => do
    let (fixed, _) ← (← after earlier).activate layer
    pure fixed
  | .deactivate layer :: earlier => do
    pure ((← after earlier).deactivate layer).1
  | .clear :: earlier => do
    pure (← after earlier).truncate

/-- A fixed stack holds the layers of a stack, in the opposite order. -/
def Holds (fixed : Fixed) (stack : LayerStack) : Prop := fixed.contents = stack.upper.reverse

variable {fixed : Fixed}

/-- Activating a layer never runs out of room. -/
theorem Holds.activate (H : fixed.Holds stack) (hp : stack.Proper) (layer : Layer) :
    ∃ fixed', fixed.activate layer = some (fixed', (stack.activate layer).value.2) ∧
      fixed'.Holds (stack.activate layer).value.1 := by
  have hactive : (layer = Layer.base || fixed.contents.contains layer) = stack.isActive layer := by
    rw [H, isActive]
    simp
  cases h : stack.isActive layer with
  | true =>
    rw [activate_of_isActive h, Fixed.activate, hactive, h]
    exact ⟨fixed, rfl, H⟩
  | false =>
    have hsize : fixed.size = stack.size := by
      rw [← fixed.length_contents, H, List.length_reverse]
      rfl
    obtain ⟨pushed, hpushed, hcontents, -⟩ := Buffer.push?_eq_some (hsize ▸ hp.size_lt h) layer
    rw [activate_of_not_isActive (Bool.not_eq_true _ ▸ h), Fixed.activate, hactive, h, hpushed]
    refine ⟨pushed, rfl, ?_⟩
    rw [Holds, hcontents, H, List.reverse_cons]

theorem erase_reverse {layers : List Layer} (hn : layers.Nodup) (layer : Layer) :
    layers.reverse.erase layer = (layers.erase layer).reverse := by
  rw [hn.erase_eq_filter, (List.nodup_reverse.mpr hn).erase_eq_filter, List.filter_reverse]

theorem Holds.deactivate (H : fixed.Holds stack) (hp : stack.Proper) (layer : Layer) :
    (fixed.deactivate layer).2 = (stack.deactivate layer).value.2 ∧
      (fixed.deactivate layer).1.Holds (stack.deactivate layer).value.1 := by
  have hmem : layer ∈ fixed.contents ↔ layer ∈ stack.upper := by rw [H, List.mem_reverse]
  by_cases hb : layer = Layer.base
  · rw [deactivate_of_notMem (.inl hb), Fixed.deactivate, if_pos hb]
    exact ⟨rfl, H⟩
  rw [Fixed.deactivate, if_neg hb]
  cases hi : fixed.contents.idxOf? layer with
  | none =>
    have hm : layer ∉ stack.upper := fun hm => List.idxOf?_eq_none_iff.mp hi (hmem.mpr hm)
    rw [deactivate_of_notMem (.inr hm)]
    exact ⟨rfl, H⟩
  | some i =>
    obtain ⟨hlt, hget, -⟩ := List.idxOf?_eq_some_iff.mp hi
    have hm : layer ∈ stack.upper := hmem.mp (hget ▸ List.getElem_mem hlt)
    have herase : fixed.contents.eraseIdx i = fixed.contents.erase layer := by
      rw [List.erase_eq_eraseIdx, hi]
    rw [deactivate_of_mem hb hm]
    refine ⟨rfl, ?_⟩
    rw [Holds, Buffer.contents_remove (fixed.length_contents ▸ hlt), herase, H,
      erase_reverse hp.nodup]

/-- No calls exhaust the room of a fixed stack. -/
theorem after_eq_some (calls : List Call) :
    ∃ fixed, after calls = some fixed ∧ fixed.Holds (LayerStack.after calls) := by
  induction calls with
  | nil => exact ⟨empty, rfl, Buffer.contents_blank _⟩
  | cons call earlier ih =>
    obtain ⟨fixed, hfixed, H⟩ := ih
    have hp := proper_after earlier
    cases call with
    | activate layer =>
      obtain ⟨next, hnext, hholds⟩ := H.activate hp layer
      refine ⟨next, ?_, hholds⟩
      simp only [after, hfixed, hnext, Option.bind_eq_bind, Option.bind_some, Option.pure_def]
    | deactivate layer =>
      refine ⟨_, ?_, (H.deactivate hp layer).2⟩
      simp only [after, hfixed, Option.bind_eq_bind, Option.bind_some, Option.pure_def]
    | clear =>
      refine ⟨_, ?_, Buffer.contents_truncate fixed⟩
      simp only [after, hfixed, Option.bind_eq_bind, Option.bind_some, Option.pure_def]

end Fixed

end LayerStack

end Keystroke
