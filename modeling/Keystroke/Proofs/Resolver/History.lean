import Keystroke.Proofs.Resolver.Holds

/-!
# Histories of a resolver

A history is a list of operations on a resolver, the latest first; `Resolver.after` is the state it
leads to. Besides the resolver's own operations a history can change the layer stack behind the
resolver's back. The hold counts are exact after every history (`counted_after`) and a toggle is
the parity of its presses since the last reset (`toggled_after`). If the layer stack is left to the
resolver, and cleared together with each reset, it holds exactly the layers that are wanted
(`Coupled.syncedAt`).
-/

namespace Keystroke

namespace Resolver

/-- What can be done to a resolver and to its layer stack. -/
inductive Operation where
  | press (key : Key) (action : BasicAction)
  | release (key : Key)
  | resolve (keymap : Keymap) (config : Config) (key : Key) (edge : Edge)
  | keyUp (key : Key)
  | takeRequest
  | reset
  | activate (layer : Layer)
  | deactivate (layer : Layer)
  | clear

/-- The state after one operation. -/
def operate (resolver : Resolver) : Operation → Resolver
  | .press key action => (resolver.press key action).value
  | .release key => (resolver.release key).value.1
  | .resolve keymap config key edge => (resolver.resolve keymap config key edge).value.1
  | .keyUp key => resolver.keyUp key
  | .takeRequest => resolver.takeRequest.1
  | .reset => resolver.reset
  | .activate layer => { resolver with layers := (resolver.layers.activate layer).value.1 }
  | .deactivate layer => { resolver with layers := (resolver.layers.deactivate layer).value.1 }
  | .clear => { resolver with layers := {} }

/-- The key and the action that an operation presses. A tap-hold pair is looked up and not
pressed. -/
def pressed (resolver : Resolver) : Operation → Option (Key × BasicAction)
  | .press key action => some (key, action)
  | .resolve keymap config key .pressed =>
    (keymap.resolve config resolver.layers key).basic?.map (key, ·)
  | _ => none

/-- The key whose latch an operation undoes: the one it presses or releases. -/
def unlatched (resolver : Resolver) : Operation → Option Key
  | .release key | .resolve _ _ key .released => some key
  | operation => (resolver.pressed operation).map (·.1)

/-- The operation changes the hold or the toggle of a layer: it presses a hold or a toggle of it,
or it undoes a hold of it. -/
def Touches (resolver : Resolver) (operation : Operation) (layer : Layer) : Prop :=
  (∃ key action, resolver.pressed operation = some (key, action) ∧
    (action = .layerHold layer ∨ action = .layerToggle layer)) ∨
  ∃ key, resolver.unlatched operation = some key ∧
    resolver.latched[key] = some (.layerHold layer)

/-- The state after a history. -/
def after : List Operation → Resolver
  | [] => new
  | operation :: earlier => (after earlier).operate operation

/-- How often a toggle of a layer was pressed since the last reset. -/
def togglePresses (layer : Layer) : List Operation → Nat
  | [] | .reset :: _ => 0
  | operation :: earlier => togglePresses layer earlier +
    if ((after earlier).pressed operation).map (·.2) = some (.layerToggle layer) then 1 else 0

/-- The operation changes the layer stack through the resolver or not at all. -/
def Operation.isOwn : Operation → Bool
  | press .. | release .. | resolve .. | keyUp .. | takeRequest => true
  | reset | activate .. | deactivate .. | clear => false

/-- The layer stack is changed by the resolver alone and cleared together with each reset. -/
inductive Coupled : List Operation → Prop where
  | nil : Coupled []
  | own : operation.isOwn = true → Coupled earlier → Coupled (operation :: earlier)
  | clearReset : Coupled earlier → Coupled (.reset :: .clear :: earlier)
  | resetClear : Coupled earlier → Coupled (.clear :: .reset :: earlier)

variable {resolver : Resolver} {operation : Operation} {layer : Layer} {key : Key}
  {action : BasicAction} {history : List Operation}

/-! ## Operations -/

theorem operate_resolve_basic {keymap : Keymap} {config : Config}
    (h : keymap.resolve config resolver.layers key = .basic action) :
    resolver.operate (.resolve keymap config key .pressed) =
      ((resolver.mark key true).press key action).value := by
  have h' : keymap.resolve config (resolver.mark key true).layers key = .basic action := h
  simp only [operate, resolve, resolvePress, h', Logged.value_bind, Logged.value_pure]

theorem operate_resolve_tapHold {keymap : Keymap} {config : Config} {tap hold : BasicAction}
    (h : keymap.resolve config resolver.layers key = .tapHold tap hold) :
    resolver.operate (.resolve keymap config key .pressed) = resolver.mark key true := by
  have h' : keymap.resolve config (resolver.mark key true).layers key = .tapHold tap hold := h
  simp only [operate, resolve, resolvePress, h', Logged.value_pure]

/-- What an operation presses is pressed in a state that differs in the keys that are down at
most. -/
theorem operate_of_pressed (h : resolver.pressed operation = some (key, action)) :
    ∃ before : Resolver, (before = resolver ∨ before = resolver.mark key true) ∧
      resolver.operate operation = (before.press key action).value := by
  cases operation with
  | press other pressed =>
    cases h
    exact ⟨resolver, .inl rfl, rfl⟩
  | resolve keymap config other edge =>
    cases edge with
    | pressed =>
      simp only [pressed, Option.map_eq_some_iff] at h
      obtain ⟨basic, hbasic, hpair⟩ := h
      cases hpair
      cases hfound : keymap.resolve config resolver.layers key with
      | basic found =>
        rw [hfound] at hbasic
        cases hbasic
        exact ⟨_, .inr rfl, operate_resolve_basic hfound⟩
      | tapHold tap hold =>
        rw [hfound] at hbasic
        cases hbasic
    | released => cases h
  | _ => cases h

/-- A key that an operation unlatches and does not press is released. -/
theorem operate_of_unlatched (hp : resolver.pressed operation = none)
    (h : resolver.unlatched operation = some key) :
    ∃ before : Resolver, (before = resolver ∨ before = resolver.mark key false) ∧
      resolver.operate operation = (before.release key).value.1 := by
  cases operation with
  | release other =>
    cases h
    exact ⟨resolver, .inl rfl, rfl⟩
  | resolve keymap config other edge =>
    cases edge with
    | pressed =>
      simp only [unlatched, hp, Option.map_none, reduceCtorEq] at h
    | released =>
      cases h
      exact ⟨_, .inr rfl, rfl⟩
  | press other action => cases hp
  | _ => cases h

/-- The books of an operation that neither presses nor releases stay as they are, or it resets
them. -/
theorem operate_of_neither (hp : resolver.pressed operation = none)
    (hu : resolver.unlatched operation = none) :
    operation = .reset ∨
      ((resolver.operate operation).latched = resolver.latched ∧
        (resolver.operate operation).holds = resolver.holds ∧
        (resolver.operate operation).toggled = resolver.toggled ∧
        (operation.isOwn = true → (resolver.operate operation).layers = resolver.layers)) := by
  cases operation with
  | press other action => cases hp
  | release other => cases hu
  | resolve keymap config other edge =>
    cases edge with
    | pressed =>
      cases hfound : keymap.resolve config resolver.layers other with
      | basic found => simp [pressed, hfound, Action.basic?] at hp
      | tapHold tap hold =>
        rw [operate_resolve_tapHold hfound]
        exact .inr ⟨rfl, rfl, rfl, fun _ => rfl⟩
    | released => cases hu
  | reset => exact .inl rfl
  | keyUp other | takeRequest => exact .inr ⟨rfl, rfl, rfl, fun _ => rfl⟩
  | activate layer | deactivate layer | clear => exact .inr ⟨rfl, rfl, rfl, nofun⟩

/-- Marking a key leaves the books alone. -/
theorem books_of_marked {before : Resolver} {level : Bool}
    (h : before = resolver ∨ before = resolver.mark key level) :
    before.latched = resolver.latched ∧ before.holds = resolver.holds := by
  rcases h with rfl | rfl <;> exact ⟨rfl, rfl⟩

theorem unlatched_of_pressed (h : resolver.pressed operation = some (key, action)) :
    resolver.unlatched operation = some key := by
  cases operation with
  | press other pressed =>
    cases h
    rfl
  | resolve keymap config other edge =>
    cases edge with
    | pressed => simp only [unlatched, h, Option.map_some]
    | released => cases h
  | _ => cases h

/-- An operation presses, or releases, or does neither. -/
theorem pressed_or_unlatched (resolver : Resolver) (operation : Operation) :
    (∃ key action, resolver.pressed operation = some (key, action)) ∨
      (resolver.pressed operation = none ∧ ∃ key, resolver.unlatched operation = some key) ∨
      (resolver.pressed operation = none ∧ resolver.unlatched operation = none) := by
  cases hp : resolver.pressed operation with
  | some pair => exact .inl ⟨pair.1, pair.2, rfl⟩
  | none =>
    cases hu : resolver.unlatched operation with
    | some key => exact .inr (.inl ⟨rfl, key, rfl⟩)
    | none => exact .inr (.inr ⟨rfl, rfl⟩)

/-! ## What every history keeps -/

theorem Counted.operate (H : resolver.Counted) (operation : Operation) :
    (resolver.operate operation).Counted := by
  rcases resolver.pressed_or_unlatched operation with
    ⟨key, action, hp⟩ | ⟨hp, key, hu⟩ | ⟨hp, hu⟩
  · obtain ⟨before, hbefore, heq⟩ := operate_of_pressed hp
    obtain ⟨hl, hh⟩ := books_of_marked hbefore
    rw [heq]
    exact (H.congr hl hh).press key action
  · obtain ⟨before, hbefore, heq⟩ := operate_of_unlatched hp hu
    obtain ⟨hl, hh⟩ := books_of_marked hbefore
    rw [heq]
    exact (H.congr hl hh).release key
  · rcases operate_of_neither hp hu with rfl | ⟨hl, hh, -, -⟩
    · exact counted_of_latched_none (fun _ => Slots.getElem_fill ..) fun _ => Slots.getElem_fill ..
    · exact H.congr hl hh

theorem counted_after (history : List Operation) : (after history).Counted := by
  induction history with
  | nil =>
    exact counted_of_latched_none (fun _ => Slots.getElem_fill ..) fun _ => Slots.getElem_fill ..
  | cons operation earlier ih => exact ih.operate operation

theorem proper_operate (H : resolver.layers.Proper) (operation : Operation) :
    (resolver.operate operation).layers.Proper := by
  cases operation with
  | press key action => exact proper_press H
  | release key => exact proper_release H
  | resolve keymap config key edge =>
    cases edge with
    | pressed =>
      cases h : keymap.resolve config resolver.layers key with
      | basic action =>
        rw [operate_resolve_basic h]
        exact proper_press H
      | tapHold tap hold =>
        rw [operate_resolve_tapHold h]
        exact H
    | released => exact proper_release H
  | keyUp | takeRequest | reset => exact H
  | activate layer => exact H.activate layer
  | deactivate layer => exact H.deactivate layer
  | clear => exact LayerStack.proper_empty

theorem proper_after (history : List Operation) : (after history).layers.Proper := by
  induction history with
  | nil => exact LayerStack.proper_empty
  | cons operation earlier ih => exact proper_operate ih operation

theorem operate_toggled (h : operation ≠ .reset) (layer : Layer) :
    (resolver.operate operation).toggled[layer] = (resolver.toggled[layer] ^^
      decide ((resolver.pressed operation).map (·.2) = some (.layerToggle layer))) := by
  rcases resolver.pressed_or_unlatched operation with
    ⟨key, action, hp⟩ | ⟨hp, key, hu⟩ | ⟨hp, hu⟩
  · obtain ⟨before, hbefore, heq⟩ := operate_of_pressed hp
    have hsame : before.toggled = resolver.toggled := by rcases hbefore with rfl | rfl <;> rfl
    rw [heq, press_toggled, hsame, hp]
    simp only [Option.map_some, Option.some.injEq]
  · obtain ⟨before, hbefore, heq⟩ := operate_of_unlatched hp hu
    have hsame : before.toggled = resolver.toggled := by rcases hbefore with rfl | rfl <;> rfl
    rw [heq, release_toggled, hsame, hp]
    exact (Bool.xor_false _).symm
  · obtain ⟨-, -, hsame, -⟩ := (operate_of_neither hp hu).resolve_left h
    rw [hsame, hp]
    exact (Bool.xor_false _).symm

/-- A toggle is the parity of its presses since the last reset. -/
theorem toggled_after (history : List Operation) (layer : Layer) :
    (after history).toggled[layer] = decide (togglePresses layer history % 2 = 1) := by
  induction history with
  | nil => exact Slots.getElem_fill ..
  | cons operation earlier ih =>
    by_cases hr : operation = .reset
    · subst hr
      exact Slots.getElem_fill ..
    · have hcount : togglePresses layer (operation :: earlier) = togglePresses layer earlier +
          if ((after earlier).pressed operation).map (·.2) = some (.layerToggle layer)
            then 1 else 0 := by
        cases operation with
        | reset => exact absurd rfl hr
        | _ => rfl
      rw [hcount, after, operate_toggled hr, ih]
      split
      · next h =>
        rw [decide_eq_true h, Bool.xor_true, ← decide_not]
        exact decide_eq_decide.mpr (by omega)
      · next h => rw [decide_eq_false h, Bool.xor_false, Nat.add_zero]

/-! ## The layer stack -/

/-- Right after an operation has changed the hold or the toggle of a layer, the layer is on the
stack if it is wanted. -/
theorem Touches.syncedAt (H : resolver.layers.Proper) (h : resolver.Touches operation layer) :
    (resolver.operate operation).SyncedAt layer := by
  rcases h with ⟨key, action, hp, ha⟩ | ⟨key, hu, hl⟩
  · obtain ⟨before, hbefore, heq⟩ := operate_of_pressed hp
    rw [heq]
    exact syncedAt_press (by rcases hbefore with rfl | rfl <;> exact H) (.inl ha)
  rcases resolver.pressed_or_unlatched operation with
    ⟨other, action, hp⟩ | ⟨hp, -⟩ | ⟨hp, -⟩
  · obtain ⟨before, hbefore, heq⟩ := operate_of_pressed hp
    rw [unlatched_of_pressed hp] at hu
    cases hu
    rw [heq]
    refine syncedAt_press (by rcases hbefore with rfl | rfl <;> exact H) (.inr (.inl ?_))
    rcases hbefore with rfl | rfl <;> exact hl
  all_goals
    obtain ⟨before, hbefore, heq⟩ := operate_of_unlatched hp hu
    rw [heq]
    refine syncedAt_release (by rcases hbefore with rfl | rfl <;> exact H) (.inl ?_)
    rcases hbefore with rfl | rfl <;> exact hl

theorem syncedAt_operate (H : resolver.layers.Proper) (h : resolver.SyncedAt layer)
    (hown : operation.isOwn = true) : (resolver.operate operation).SyncedAt layer := by
  rcases resolver.pressed_or_unlatched operation with
    ⟨key, action, hp⟩ | ⟨hp, key, hu⟩ | ⟨hp, hu⟩
  · obtain ⟨before, hbefore, heq⟩ := operate_of_pressed hp
    rw [heq]
    rcases hbefore with rfl | rfl <;> exact syncedAt_press H (.inr (.inr h))
  · obtain ⟨before, hbefore, heq⟩ := operate_of_unlatched hp hu
    rw [heq]
    rcases hbefore with rfl | rfl <;> exact syncedAt_release H (.inr h)
  · rcases operate_of_neither hp hu with rfl | ⟨-, hh, ht, hlayers⟩
    · cases hown
    · simpa only [SyncedAt, wants, hh, ht, hlayers hown] using h

theorem syncedAt_of_cleared (hu : resolver.layers.upper = [])
    (hh : resolver.holds = Slots.fill 0) (ht : resolver.toggled = Slots.fill false)
    (layer : Layer) : resolver.SyncedAt layer := by
  simp [SyncedAt, wants, hu, hh, ht]

/-- With the layer stack left to the resolver, exactly the wanted layers are on it. -/
theorem Coupled.syncedAt (H : Coupled history) (layer : Layer) :
    (after history).SyncedAt layer := by
  induction H with
  | nil => exact syncedAt_of_cleared rfl rfl rfl layer
  | own hown _ ih => exact syncedAt_operate (proper_after _) ih hown
  | clearReset | resetClear => exact syncedAt_of_cleared rfl rfl rfl layer

end Resolver

end Keystroke
