import Keystroke.Debounce

/-!
# Debounced edges

A cell reports an edge exactly when its accepted level changes, so that the edges of a key
alternate: a press is reported of a key that was up and a release of one that was down.
-/

namespace Keystroke

namespace Cell

variable {policy : DebouncePolicy} {cell : Cell} {raw : Bool} {now : Tick} {edge : Edge}

/-- An edge leads away from the accepted level. -/
theorem stable_of_sample_edge (h : (cell.sample policy raw now).2 = some edge) :
    cell.stable = !edge.level ∧ (cell.sample policy raw now).1.stable = edge.level := by
  unfold sample at h ⊢
  split at h
  · cases h
  · next hraw =>
    rw [if_neg hraw]
    simp only at h ⊢
    split at h
    · next haccept =>
      obtain rfl := Option.some.inj h
      rw [if_pos haccept, Edge.level_ofLevel]
      exact ⟨by cases hs : cell.stable <;> cases raw <;> simp_all, rfl⟩
    · cases h

theorem stable_of_sample_none (h : (cell.sample policy raw now).2 = none) :
    (cell.sample policy raw now).1.stable = cell.stable := by
  unfold sample at h ⊢
  split at h
  · next hraw => rw [if_pos hraw]
  · next hraw =>
    rw [if_neg hraw]
    simp only at h ⊢
    split at h
    · cases h
    · next haccept => rw [if_neg haccept]

end Cell

namespace Debouncer

variable {debouncer : Debouncer} {levels : Levels} {now : Tick} {key : Key} {edge : Edge}

theorem isPressed_of_edge (h : (debouncer.sampleAll levels now).value.2[key] = some edge) :
    debouncer.isPressed key = !edge.level ∧
      (debouncer.sampleAll levels now).value.1.isPressed key = edge.level := by
  simp only [sampleAll, Slots.getElem_map, Slots.getElem_ofFn] at h
  simp only [isPressed, sampleAll, Slots.getElem_map, Slots.getElem_ofFn]
  exact Cell.stable_of_sample_edge h

theorem isPressed_of_no_edge (h : (debouncer.sampleAll levels now).value.2[key] = none) :
    (debouncer.sampleAll levels now).value.1.isPressed key = debouncer.isPressed key := by
  simp only [sampleAll, Slots.getElem_map, Slots.getElem_ofFn] at h
  simp only [isPressed, sampleAll, Slots.getElem_map, Slots.getElem_ofFn]
  exact Cell.stable_of_sample_none h

end Debouncer

end Keystroke
