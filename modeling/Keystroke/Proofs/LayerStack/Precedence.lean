import Keystroke.Proofs.LayerStack.Fixed
import Keystroke.Proofs.Resolver.Effect

/-!
# Precedence follows the history

When a layer has become active is told by the calls about that layer alone (`activeSince`). The
stack lists exactly the layers that are active by that account, those that became active later
first (`Follows`), and so a key resolves to the entry of the layer activated last among those that
have one (`resolve_of_outranks`).
-/

namespace Keystroke

namespace LayerStack

/-- How many calls came before the one that made a layer active, if it is active above base. The
calls are given latest first. -/
def activeSince (layer : Layer) : List Call → Option Nat
  | [] | .clear :: _ => none
  | .activate other :: earlier =>
    if other = layer ∧ layer ≠ Layer.base then
      (activeSince layer earlier).or (some earlier.length)
    else activeSince layer earlier
  | .deactivate other :: earlier => if other = layer then none else activeSince layer earlier

/-- Both layers are active above base, and the first one has become so later. -/
def Outranks (calls : List Call) (layer other : Layer) : Prop :=
  ∃ since ∈ activeSince layer calls, ∃ before ∈ activeSince other calls, before < since

instance (calls : List Call) (layer other : Layer) : Decidable (Outranks calls layer other) :=
  inferInstanceAs (Decidable (∃ _ ∈ _, _))

/-- The stack lists the active layers, those that became active later first. -/
structure Follows (stack : LayerStack) (calls : List Call) : Prop where
  mem : ∀ layer, layer ∈ stack.upper ↔ (activeSince layer calls).isSome = true
  order : stack.upper.Pairwise (Outranks calls)

variable {stack : LayerStack} {calls earlier : List Call} {layer other : Layer}

theorem activeSince_lt {since : Nat} (h : activeSince layer calls = some since) :
    since < calls.length := by
  induction calls with
  | nil => cases h
  | cons call earlier ih =>
    cases call with
    | activate other =>
      rw [activeSince] at h
      split at h
      · rcases Option.or_eq_some_iff.mp h with h | ⟨-, h⟩
        · exact Nat.lt_succ_of_lt (ih h)
        · cases h
          exact Nat.lt_succ_self _
      · exact Nat.lt_succ_of_lt (ih h)
    | deactivate other =>
      rw [activeSince] at h
      split at h
      · cases h
      · exact Nat.lt_succ_of_lt (ih h)
    | clear => cases h

/-- A stack that a call leaves alone still follows if the call changes the time of no layer. -/
theorem Follows.congr (H : stack.Follows earlier)
    (h : ∀ layer, activeSince layer calls = activeSince layer earlier) : stack.Follows calls := by
  refine ⟨fun layer => by rw [h]; exact H.mem layer, H.order.imp fun hr => ?_⟩
  simpa only [Outranks, h] using hr

theorem Follows.eq_none (H : stack.Follows calls) (h : layer ∉ stack.upper) :
    activeSince layer calls = none := by
  rw [H.mem] at h
  simpa using h

/-- A call that is about one layer leaves the others in the order they had. -/
theorem Outranks.of_ne {above below : Layer} (h : Outranks earlier above below)
    (hsame : ∀ other, other ≠ layer → activeSince other calls = activeSince other earlier)
    (ha : above ≠ layer) (hb : below ≠ layer) : Outranks calls above below := by
  simpa only [Outranks, hsame above ha, hsame below hb] using h

theorem Follows.activate (H : stack.Follows earlier) (layer : Layer) :
    (stack.activate layer).value.1.Follows (.activate layer :: earlier) := by
  have hsame : ∀ other, other ≠ layer →
      activeSince other (.activate layer :: earlier) = activeSince other earlier :=
    fun other hne => if_neg fun h => hne h.1.symm
  by_cases h : stack.isActive layer = true
  · -- the layer keeps the time it has
    rw [activate_of_isActive h]
    refine H.congr fun other => ?_
    by_cases hc : layer = other ∧ other ≠ Layer.base
    · obtain ⟨rfl, hb⟩ := hc
      have hm := (isActive_iff.mp h).resolve_left hb
      obtain ⟨since, hsince⟩ := Option.isSome_iff_exists.mp ((H.mem layer).mp hm)
      rw [activeSince, if_pos ⟨rfl, hb⟩, hsince]
      rfl
    · rw [activeSince, if_neg hc]
  · obtain ⟨hb, hm⟩ := not_isActive_iff.mp (Bool.eq_false_iff.mpr h)
    have hnow : activeSince layer (.activate layer :: earlier) = some earlier.length := by
      rw [activeSince, if_pos ⟨rfl, hb⟩, H.eq_none hm]
      rfl
    have hne : ∀ other ∈ stack.upper, other ≠ layer := fun other ho he => hm (he ▸ ho)
    rw [activate_of_not_isActive h]
    refine ⟨fun other => ?_, List.pairwise_cons.mpr ⟨fun other ho => ?_, ?_⟩⟩
    · rw [List.mem_cons]
      by_cases he : other = layer
      · simp [he, hnow]
      · simp [he, hsame other he, H.mem]
    · obtain ⟨since, hsince⟩ := Option.isSome_iff_exists.mp ((H.mem other).mp ho)
      exact ⟨_, hnow, since, (hsame other (hne other ho)).trans hsince, activeSince_lt hsince⟩
    · exact H.order.imp_of_mem fun ha hb hr => hr.of_ne hsame (hne _ ha) (hne _ hb)

theorem Follows.deactivate (H : stack.Follows earlier) (hp : stack.Proper) (layer : Layer) :
    (stack.deactivate layer).value.1.Follows (.deactivate layer :: earlier) := by
  have hsame : ∀ other, other ≠ layer →
      activeSince other (.deactivate layer :: earlier) = activeSince other earlier :=
    fun other hne => if_neg hne.symm
  have hnow : activeSince layer (.deactivate layer :: earlier) = none := if_pos rfl
  by_cases h : layer = Layer.base ∨ layer ∉ stack.upper
  · have hm : layer ∉ stack.upper := h.elim (fun hb => hb ▸ hp.base_notMem) id
    rw [deactivate_of_notMem h]
    refine H.congr fun other => ?_
    by_cases he : other = layer
    · rw [he, hnow, H.eq_none hm]
    · exact hsame other he
  · rw [not_or, not_not] at h
    rw [deactivate_of_mem h.1 h.2]
    refine ⟨fun other => ?_, ?_⟩
    · rw [hp.nodup.mem_erase_iff]
      by_cases he : other = layer
      · simp [he, hnow]
      · simp [he, hsame other he, H.mem]
    · have hne : ∀ other ∈ stack.upper.erase layer, other ≠ layer :=
        fun other ho => (hp.nodup.mem_erase_iff.mp ho).1
      exact (H.order.sublist List.erase_sublist).imp_of_mem fun ha hb hr =>
        hr.of_ne hsame (hne _ ha) (hne _ hb)

theorem follows_after (calls : List Call) : (after calls).Follows calls := by
  induction calls with
  | nil => exact ⟨fun layer => by simp [after, activeSince], List.Pairwise.nil⟩
  | cons call earlier ih =>
    cases call with
    | activate layer => exact ih.activate layer
    | deactivate layer => exact ih.deactivate (proper_after earlier) layer
    | clear => exact ⟨fun layer => by simp [after, activeSince], List.Pairwise.nil⟩

/-- The layer activated last among those with an entry for the key gives the entry. -/
theorem Follows.resolve_of_outranks (H : stack.Follows calls) (hm : layer ∈ stack.upper)
    {keymap : Keymap} {config : Config} {key : Key}
    (hentry : keymap.lookup config layer key ≠ .noOp)
    (h : ∀ other, Outranks calls other layer → keymap.lookup config other key = .noOp) :
    keymap.resolve config stack key = keymap.lookup config layer key := by
  obtain ⟨upper⟩ := stack
  obtain ⟨above, below, rfl⟩ := List.append_of_mem hm
  have horder := (List.pairwise_append.mp H.order).2.2
  exact Keymap.resolve_of_split
    (fun other ho => h other (horder other ho layer List.mem_cons_self)) hentry

/-- Precedence follows the history. After any calls the stack has no layer twice and never the base
layer, and there is room for a layer that is not active, also where room is fixed. The order of
precedence has exactly the layers active by the account of the calls, those that became active later
first, and then the base layer. To activate an active layer, or to deactivate one that is not active
or the base layer, is answered by false and changes nothing. So a key resolves to the entry of the
layer that became active last among those with an entry for it, or else to that of the base
layer. -/
theorem precedence_follows_history (calls : List Call) :
    let stack := after calls
    (stack.upper.Nodup ∧ Layer.base ∉ stack.upper ∧ stack.size ≤ layerCount - 1 ∧
      (∀ layer, stack.isActive layer = false → stack.size < layerCount - 1) ∧
      ∃ fixed, Fixed.after calls = some fixed ∧ fixed.contents = stack.upper.reverse) ∧
    (stack.order = stack.upper ++ [Layer.base] ∧
      (∀ layer, layer ∈ stack.upper ↔ (activeSince layer calls).isSome = true) ∧
      stack.upper.Pairwise (Outranks calls)) ∧
    (∀ layer, (stack.isActive layer = true → stack.activate layer = pure (stack, false)) ∧
      (layer = Layer.base ∨ stack.isActive layer = false →
        stack.deactivate layer = pure (stack, false))) ∧
    ∀ (keymap : Keymap) config key,
      (∀ layer, (activeSince layer calls).isSome = true →
        keymap.lookup config layer key ≠ .noOp →
        (∀ other, Outranks calls other layer → keymap.lookup config other key = .noOp) →
        keymap.resolve config stack key = keymap.lookup config layer key) ∧
      ((∀ layer, (activeSince layer calls).isSome = true →
          keymap.lookup config layer key = .noOp) →
        keymap.resolve config stack key = keymap.lookup config Layer.base key) := by
  intro stack
  have hproper := proper_after calls
  have hfollows := follows_after calls
  refine ⟨⟨hproper.nodup, hproper.base_notMem, hproper.size_le, fun layer => hproper.size_lt,
    Fixed.after_eq_some calls⟩, ⟨rfl, hfollows.mem, hfollows.order⟩, fun layer => ⟨?_, ?_⟩,
    fun keymap config key => ⟨fun layer hactive => ?_, fun h => ?_⟩⟩
  · exact activate_eq_pure
  · exact fun h => deactivate_eq_pure (h.imp id fun hi => (not_isActive_iff.mp hi).2)
  · exact hfollows.resolve_of_outranks ((hfollows.mem layer).mpr hactive)
  · exact Keymap.resolve_of_transparent fun layer hm => h layer ((hfollows.mem layer).mp hm)

/-- Layer 2 goes and comes back, and so outranks layer 3, which outranks layer 1 although that is
activated again after it. -/
theorem precedence_follows_reactivation :
    let calls : List Call := [.activate 1, .activate 2, .activate 3, .deactivate 2, .activate 2,
      .activate 1].reverse
    let keymap := ((Keymap.empty.set 0 3 7 (.emit .a)).set 0 Layer.base 7 (.emit .b)).set 0
      Layer.base 8 (.emit .c)
    (after calls).order = [2, 3, 1, 0] ∧ (after calls).size < layerCount - 1 ∧
      (after calls).activate 1 = pure (after calls, false) ∧
      (after calls).deactivate 0 = pure (after calls, false) ∧
      (after calls).deactivate 4 = pure (after calls, false) ∧
      keymap.resolve 0 (after calls) 7 = .emit .a ∧
      keymap.resolve 0 (after calls) 8 = .emit .c := by
  intro calls keymap
  obtain ⟨⟨-, -, -, hroom, -⟩, -, hfalse, hresolve⟩ := precedence_follows_history calls
  refine ⟨by decide, hroom 4 (by decide), (hfalse 1).1 (by decide), (hfalse 0).2 (by decide),
    (hfalse 4).2 (by decide), ?_, ?_⟩
  · refine ((hresolve keymap 0 7).1 3 (by decide) (by decide) ?_).trans (by decide)
    decide
  · exact ((hresolve keymap 0 8).2 (by decide)).trans (by decide)

end LayerStack

end Keystroke
