import Keystroke.Proofs.Engine.Deeds

/-!
# When the log tells of a press on a latched key

`Resolver.clearLatch` is the one place that tells `Event.pressedWhileLatched`, so a move whose
action goes to a key without a latch does not tell it (`calm_make`). A computation that never tells
it is `Logged.Calm`.
-/

namespace Keystroke

/-- The event tells of a press on a key that has an action latched. -/
def Event.isPressOnLatched : Event → Bool
  | pressedWhileLatched .. => true
  | _ => false

namespace Logged

/-- Nothing is told of a press on a latched key. -/
def Calm {α : Type} (x : Logged α) : Prop :=
  ∀ event ∈ x.events, event.isPressOnLatched = false

variable {α β : Type}

theorem calm_pure (a : α) : (pure a : Logged α).Calm := fun _ h => nomatch h

theorem Calm.bind {x : Logged α} {f : α → Logged β} (hx : x.Calm) (hf : (f x.value).Calm) :
    (x >>= f).Calm := by
  intro event h
  rcases List.mem_append.mp h with h | h
  · exact hx event h
  · exact hf event h

theorem calm_tell {event : Event} (h : event.isPressOnLatched = false) : (tell event).Calm := by
  intro told hm
  obtain rfl := List.mem_singleton.mp hm
  exact h

theorem Calm.of_foldlM {σ : Type} {f : σ → α → Logged σ} {s : σ} {l : List α}
    (h : ∀ before a after, l = before ++ a :: after →
      (f (before.foldl (fun s a => (f s a).value) s) a).Calm) : (l.foldlM f s).Calm := by
  intro event hm
  obtain ⟨before, a, after, hl, hevent⟩ := exists_of_mem_events_foldlM hm
  exact h before a after hl event hevent

end Logged

open Logged

/-! ## The debouncer, the layer stack and the resolver -/

theorem Debouncer.calm_sampleAll (debouncer : Debouncer) (levels : Levels) (now : Tick) :
    (debouncer.sampleAll levels now).Calm := by
  intro event hm
  obtain ⟨key, -, hm⟩ := List.mem_flatMap.mp hm
  generalize (Slots.map _ _ : Edges)[key] = edge at hm
  cases edge with
  | none => cases hm
  | some edge =>
    obtain rfl := List.mem_singleton.mp hm
    rfl

theorem LayerStack.calm_activate (stack : LayerStack) (layer : Layer) :
    (stack.activate layer).Calm := by
  unfold activate
  split
  · exact calm_pure _
  · exact (calm_tell rfl).bind (calm_pure _)

theorem LayerStack.calm_deactivate (stack : LayerStack) (layer : Layer) :
    (stack.deactivate layer).Calm := by
  unfold deactivate
  split
  · exact calm_pure _
  · exact (calm_tell rfl).bind (calm_pure _)

namespace Resolver

variable {resolver : Resolver} {key : Key}

theorem calm_sync (resolver : Resolver) (layer : Layer) : (resolver.sync layer).Calm := by
  unfold sync
  split
  · exact (LayerStack.calm_activate _ _).bind (calm_pure _)
  · exact (LayerStack.calm_deactivate _ _).bind (calm_pure _)

theorem calm_release (resolver : Resolver) (key : Key) : (resolver.release key).Calm := by
  unfold release
  split
  · exact calm_pure _
  · split
    · exact (calm_sync _ _).bind (calm_pure _)
    · exact calm_pure _

theorem calm_settle (resolver : Resolver) (key : Key) (action : BasicAction) :
    (resolver.settle key action).Calm := by
  cases action with
  | combined other normal joint => exact (calm_tell rfl).bind (calm_pure _)
  | _ => exact calm_pure _

theorem calm_perform (resolver : Resolver) (action : BasicAction) :
    (resolver.perform action).Calm := by
  cases action with
  | layerHold layer | layerToggle layer => exact calm_sync _ _
  | _ => exact calm_pure _

theorem calm_press (h : resolver.latched[key] = none) (action : BasicAction) :
    (resolver.press key action).Calm := by
  have hclear : (resolver.clearLatch key).Calm := by
    simp only [clearLatch, h]
    exact calm_pure _
  exact hclear.bind ((calm_settle _ _ _).bind ((calm_perform _ _).bind (calm_pure _)))

end Resolver

/-! ## The moves -/

namespace Engine

variable {engine : Engine} {key : Key} {now : Tick}

/-- The actions that a move applies go to keys without a latch. -/
def AppliesToFree (engine : Engine) (move : Move) : Prop :=
  ∀ key action, (engine.deed move).applied? = some (key, action) →
    engine.resolver.latched[key] = none

theorem calm_advance_of_keep {step : TapHold.Phase → TapHold.Phase × Option TapHold.Fired}
    (h : step engine.tapHold.phases[key] = (engine.tapHold.phases[key], none)) :
    (engine.advance key step).Calm := by
  simp only [advance, h]
  exact (calm_pure _).bind (calm_pure _)

theorem calm_advance_of_fired {step : TapHold.Phase → TapHold.Phase × Option TapHold.Fired}
    {phase : TapHold.Phase} {fired : TapHold.Fired}
    (h : step engine.tapHold.phases[key] = (phase, some fired)) (hf : fired.Calm)
    (ha : (engine.resolver.apply fired.value.1 fired.value.2).Calm) :
    (engine.advance key step).Calm := by
  simp only [advance, h]
  refine Calm.bind ?_ (calm_pure _)
  rw [Option.toList_some, Resolver.applyAll, List.foldlM_cons]
  exact (hf.bind ha).bind (calm_pure _)

theorem calm_make_poll (h : engine.AppliesToFree (.poll key now)) :
    (engine.make (.poll key now)).Calm := by
  cases hphase : engine.tapHold.phases[key] with
  | idle | held hold => exact calm_advance_of_keep (by rw [hphase]; rfl)
  | tapped tap =>
    have hstep : TapHold.Phase.poll engine.tapHold.threshold now key engine.tapHold.phases[key] =
        (.idle, some ⟨(key, .tapReleased tap), []⟩) := by rw [hphase]; rfl
    exact calm_advance_of_fired hstep (fun _ h => nomatch h)
      ((Resolver.calm_release _ _).bind (calm_pure _))
  | pending since tap hold =>
    by_cases hdue : engine.tapHold.threshold ≤ elapsed now since
    · have hstep : TapHold.Phase.poll engine.tapHold.threshold now key engine.tapHold.phases[key] =
          (.held hold, some ⟨(key, .holdPressed hold), [.holdTimedOut key hold]⟩) := by
        rw [hphase]; exact if_pos hdue
      have hfree := h key hold (by simp only [deed, hphase, if_pos hdue, Deed.applied?])
      exact calm_advance_of_fired hstep (calm_tell rfl) (Resolver.calm_press hfree hold)
    · exact calm_advance_of_keep (by rw [hphase]; exact if_neg hdue)

theorem calm_make_interrupt {presser : Key} (h : engine.AppliesToFree (.interrupt key presser)) :
    (engine.make (.interrupt key presser)).Calm := by
  cases hpolicy : engine.tapHold.policy with
  | timeoutOnly =>
    simp only [make, hpolicy]
    exact calm_pure _
  | holdOnOtherKeyPress =>
    simp only [make, hpolicy]
    cases hphase : engine.tapHold.phases[key] with
    | idle | held hold | tapped tap => exact calm_advance_of_keep (by rw [hphase]; rfl)
    | pending since tap hold =>
      by_cases he : key = presser
      · exact calm_advance_of_keep (by rw [hphase]; exact if_pos he)
      · have hstep : TapHold.Phase.interrupt presser key engine.tapHold.phases[key] =
            (.held hold, some ⟨(key, .holdPressed hold), [.holdInterrupted key hold presser]⟩) := by
          rw [hphase]; exact if_neg he
        have hfree := h key hold (by simp only [deed, hpolicy, hphase, if_neg he, Deed.applied?])
        exact calm_advance_of_fired hstep (calm_tell rfl) (Resolver.calm_press hfree hold)

theorem calm_make_release (h : engine.AppliesToFree (.release key)) :
    (engine.make (.release key)).Calm := by
  cases hphase : engine.tapHold.phases[key] with
  | idle | tapped tap =>
    simp only [make, release, TapHold.Machine.release, hphase]
    exact (calm_pure _).bind
      (((Resolver.calm_release _ _).bind (calm_pure _)).bind (calm_pure _))
  | held hold =>
    simp only [make, release, TapHold.Machine.release, hphase]
    exact (calm_pure _).bind
      (((Resolver.calm_release _ _).bind (calm_pure _)).bind (calm_pure _))
  | pending since tap hold =>
    have hfree : (engine.resolver.keyUp key).latched[key] = none :=
      h key tap (by simp only [deed, hphase, Deed.applied?])
    simp only [make, release, TapHold.Machine.release, hphase]
    refine Calm.bind ((calm_tell rfl).bind (calm_pure _)) ?_
    exact (Resolver.calm_press hfree tap).bind (calm_pure _)

theorem calm_make_press (h : engine.AppliesToFree (.press key now)) :
    (engine.make (.press key now)).Calm := by
  have hlookup : engine.keymap.resolve engine.config (engine.resolver.mark key true).layers key =
      engine.lookup key := rfl
  cases hfound : engine.lookup key with
  | basic action =>
    have hfree : (engine.resolver.mark key true).latched[key] = none :=
      h key action (by simp only [deed, hfound, Deed.applied?])
    simp only [make, enter, Resolver.resolvePress, hlookup, hfound]
    exact ((Resolver.calm_press hfree action).bind (calm_pure _)).bind (calm_pure _)
  | tapHold tap hold =>
    simp only [make, enter, Resolver.resolvePress, hlookup, hfound]
    exact (calm_pure _).bind (((calm_tell rfl).bind (calm_pure _)).bind (calm_pure _))

theorem calm_make_switch (engine : Engine) : (engine.make .switch).Calm := by
  change engine.applyPending.Calm
  unfold applyPending
  split
  · exact calm_pure _
  · next config _ =>
    by_cases he : config = engine.config
    · simp only [if_pos he]
      exact calm_pure _
    · simp only [if_neg he]
      exact (calm_tell rfl).bind (calm_pure _)

/-- A move tells of a press on a latched key only if it applies an action to one. -/
theorem calm_make {move : Move} (h : engine.AppliesToFree move) : (engine.make move).Calm := by
  cases move with
  | switch => exact calm_make_switch engine
  | poll key now => exact calm_make_poll h
  | release key => exact calm_make_release h
  | interrupt key presser => exact calm_make_interrupt h
  | press key now => exact calm_make_press h

/-- A cycle tells of a press on a latched key only if one of its moves applies an action to one. -/
theorem calm_cycle {edges : Edges}
    (h : ∀ moves move more, Move.ofCycle edges now = moves ++ move :: more →
      (engine.play moves).AppliesToFree move) : (engine.cycle edges now).Calm := by
  rw [cycle_eq_moves]
  refine Calm.bind (Calm.of_foldlM fun moves move more hmoves => ?_) (calm_pure _)
  exact calm_make (h moves move more hmoves)

end Engine

end Keystroke
