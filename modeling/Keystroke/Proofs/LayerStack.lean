import Mathlib
import Keystroke.LayerStack

/-!
# Membership on the layer stack

What `LayerStack.activate` and `LayerStack.deactivate` do to the layers on the stack, and the
shape `LayerStack.Proper` that every stack built by them has. That shape is what makes a removal
complete: `deactivate` takes out one entry, and a proper stack holds no second one.
-/

namespace Keystroke

namespace LayerStack

variable {stack : LayerStack} {layer other : Layer}

/-- No layer is on the stack twice, and the base layer is never on it. -/
structure Proper (stack : LayerStack) : Prop where
  nodup : stack.upper.Nodup
  base_notMem : Layer.base ∉ stack.upper

theorem proper_empty : Proper {} := ⟨List.nodup_nil, List.not_mem_nil⟩

theorem isActive_iff : stack.isActive layer = true ↔ layer = Layer.base ∨ layer ∈ stack.upper := by
  simp only [isActive, Bool.or_eq_true, decide_eq_true_eq, List.contains_iff_mem]

/-- Activating an active layer changes nothing and logs nothing. -/
theorem activate_eq_pure (h : stack.isActive layer = true) :
    stack.activate layer = pure (stack, false) :=
  if_pos h

theorem activate_of_isActive (h : stack.isActive layer = true) :
    (stack.activate layer).value = (stack, false) := by
  rw [activate_eq_pure h, Logged.value_pure]

theorem activate_of_not_isActive (h : ¬stack.isActive layer = true) :
    (stack.activate layer).value = (⟨layer :: stack.upper⟩, true) := by
  simp only [activate, if_neg h, Logged.value_bind, Logged.value_pure]

theorem deactivate_of_mem (hb : layer ≠ Layer.base) (h : layer ∈ stack.upper) :
    (stack.deactivate layer).value = (⟨stack.upper.erase layer⟩, true) := by
  have hc : ¬(layer = Layer.base || !stack.upper.contains layer) = true := by
    simp only [Bool.or_eq_true, decide_eq_true_eq, Bool.not_eq_true', List.contains_eq_mem,
      decide_eq_false_iff_not, not_or, not_not]
    exact ⟨hb, h⟩
  simp only [deactivate, if_neg hc, Logged.value_bind, Logged.value_pure]

/-- Deactivating the base layer, or one that is not on the stack, changes nothing and logs
nothing. -/
theorem deactivate_eq_pure (h : layer = Layer.base ∨ layer ∉ stack.upper) :
    stack.deactivate layer = pure (stack, false) := by
  have hc : (layer = Layer.base || !stack.upper.contains layer) = true := by
    simp only [Bool.or_eq_true, decide_eq_true_eq, Bool.not_eq_true', List.contains_eq_mem,
      decide_eq_false_iff_not]
    exact h
  exact if_pos hc

theorem deactivate_of_notMem (h : layer = Layer.base ∨ layer ∉ stack.upper) :
    (stack.deactivate layer).value = (stack, false) := by
  rw [deactivate_eq_pure h, Logged.value_pure]

theorem mem_activate : other ∈ (stack.activate layer).value.1.upper ↔
    other ∈ stack.upper ∨ other = layer ∧ layer ≠ Layer.base := by
  by_cases h : stack.isActive layer = true
  · rw [activate_of_isActive h]
    refine ⟨.inl, ?_⟩
    rintro (hm | ⟨rfl, hb⟩)
    · exact hm
    · exact (isActive_iff.mp h).resolve_left hb
  · rw [activate_of_not_isActive h]
    have hb : layer ≠ Layer.base := fun hb => h (isActive_iff.mpr (.inl hb))
    simp only [List.mem_cons]
    exact ⟨fun hm => hm.symm.imp id fun e => ⟨e, hb⟩, fun hm => hm.symm.imp (·.1) id⟩

theorem Proper.activate (H : stack.Proper) (layer : Layer) :
    (stack.activate layer).value.1.Proper := by
  by_cases h : stack.isActive layer = true
  · rw [activate_of_isActive h]
    exact H
  · rw [activate_of_not_isActive h]
    have hn : layer ≠ Layer.base ∧ layer ∉ stack.upper := by
      rwa [isActive_iff, not_or] at h
    refine ⟨List.nodup_cons.mpr ⟨hn.2, H.nodup⟩, fun hm => ?_⟩
    rcases List.mem_cons.mp hm with hb | hm
    · exact hn.1 hb.symm
    · exact H.base_notMem hm

theorem Proper.mem_deactivate (H : stack.Proper) :
    other ∈ (stack.deactivate layer).value.1.upper ↔ other ∈ stack.upper ∧ other ≠ layer := by
  by_cases h : layer = Layer.base ∨ layer ∉ stack.upper
  · rw [deactivate_of_notMem h]
    refine ⟨fun hm => ⟨hm, ?_⟩, And.left⟩
    rintro rfl
    rcases h with rfl | h
    · exact H.base_notMem hm
    · exact h hm
  · rw [not_or, not_not] at h
    rw [deactivate_of_mem h.1 h.2]
    exact (H.nodup.mem_erase_iff).trans and_comm

theorem Proper.deactivate (H : stack.Proper) (layer : Layer) :
    (stack.deactivate layer).value.1.Proper := by
  by_cases h : layer = Layer.base ∨ layer ∉ stack.upper
  · rw [deactivate_of_notMem h]
    exact H
  · rw [not_or, not_not] at h
    rw [deactivate_of_mem h.1 h.2]
    exact ⟨H.nodup.erase layer, fun hm => H.base_notMem (List.mem_of_mem_erase hm)⟩

end LayerStack

end Keystroke
