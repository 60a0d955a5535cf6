import Keystroke.Proofs.Resolver.History

/-!
# Hold counts in bytes

A device keeps the hold count of each layer in a byte. A byte may have no room for one more hold, or
no hold to give up, and then there is no result (`HoldBytes.raise?`, `HoldBytes.lower?`). That never
comes up, and after every history the bytes are the hold counts (`HoldBytes.after?_eq_some`).
-/

namespace Keystroke

/-- The layer that an action holds. -/
def BasicAction.held? : BasicAction → Option Layer
  | layerHold layer => some layer
  | _ => none

namespace Resolver

/-- The layer that an operation gives up a hold of: what the key has latched is undone. -/
def givenUp (resolver : Resolver) (operation : Operation) : Option Layer := do
  (← resolver.latched[← resolver.unlatched operation]).held?

/-- The layer that an operation takes a hold of. -/
def taken (resolver : Resolver) (operation : Operation) : Option Layer := do
  (← resolver.pressed operation).2.held?

end Resolver

/-- Hold counts in bytes. -/
abbrev HoldBytes := PerLayer UInt8

namespace HoldBytes

open Resolver

def zero : HoldBytes := Slots.fill 0

/-- One more hold of a layer, if the byte has room for it. -/
def raise? (bytes : HoldBytes) : Option Layer → Option HoldBytes
  | none => some bytes
  | some layer =>
    if bytes[layer] < 255 then some (bytes.set layer (bytes[layer] + 1)) else none

/-- One hold of a layer less, if there is one. -/
def lower? (bytes : HoldBytes) : Option Layer → Option HoldBytes
  | none => some bytes
  | some layer => if 0 < bytes[layer] then some (bytes.set layer (bytes[layer] - 1)) else none

/-- The bytes after an operation on a resolver. A hold is given up before one is taken. -/
def operate? (bytes : HoldBytes) (resolver : Resolver) : Operation → Option HoldBytes
  | .reset => some zero
  | operation => do
    (← bytes.lower? (resolver.givenUp operation)).raise? (resolver.taken operation)

/-- The bytes after a history. -/
def after? : List Operation → Option HoldBytes
  | [] => some zero
  | operation :: earlier => do (← after? earlier).operate? (Resolver.after earlier) operation

/-- The bytes are the hold counts. -/
def Count (bytes : HoldBytes) (counts : PerLayer Nat) : Prop :=
  ∀ layer : Layer, bytes[layer].toNat = counts[layer]

variable {bytes : HoldBytes} {counts counts' : PerLayer Nat} {layer : Layer} {held : Option Layer}
  {resolver : Resolver} {operation : Operation} {action : BasicAction} {key : Key}

/-! ## Bytes -/

theorem count_zero : zero.Count (Slots.fill 0) := fun layer => by
  rw [zero, Slots.getElem_fill, Slots.getElem_fill]
  rfl

theorem Count.set {byte : UInt8} (H : bytes.Count counts) (h : byte.toNat = counts'[layer])
    (hother : ∀ other : Layer, layer ≠ other → counts'[other] = counts[other]) :
    Count (bytes.set layer byte) counts' := by
  intro other
  rw [Slots.getElem_set]
  split
  · next he => rw [← he, h]
  · next hne => rw [hother other hne, H other]

theorem Count.raise? (H : bytes.Count counts)
    (hroom : ∀ layer : Layer, held = some layer → counts[layer] < 255)
    (hcounts : ∀ layer : Layer,
      counts'[layer] = counts[layer] + if held = some layer then 1 else 0) :
    ∃ raised, bytes.raise? held = some raised ∧ raised.Count counts' := by
  cases held with
  | none => exact ⟨bytes, rfl, fun layer => (H layer).trans (hcounts layer).symm⟩
  | some layer =>
    have hbyte : bytes[layer].toNat < 255 := by rw [H layer]; exact hroom layer rfl
    refine ⟨_, if_pos hbyte, H.set ?_ fun other hne => ?_⟩
    · have hone : (1 : UInt8).toNat = 1 := rfl
      rw [UInt8.toNat_add, hcounts, if_pos rfl, ← H layer, hone]
      omega
    · rw [hcounts, if_neg fun he => hne (Option.some.inj he), Nat.add_zero]

theorem Count.lower? (H : bytes.Count counts)
    (hpos : ∀ layer : Layer, held = some layer → 0 < counts[layer])
    (hcounts : ∀ layer : Layer,
      counts'[layer] = counts[layer] - if held = some layer then 1 else 0) :
    ∃ lowered, bytes.lower? held = some lowered ∧ lowered.Count counts' := by
  cases held with
  | none => exact ⟨bytes, rfl, fun layer => (H layer).trans (hcounts layer).symm⟩
  | some layer =>
    have hbyte : 0 < bytes[layer].toNat := by rw [H layer]; exact hpos layer rfl
    refine ⟨_, if_pos hbyte, H.set ?_ fun other hne => ?_⟩
    · rw [UInt8.toNat_sub_of_le _ _ hbyte, hcounts, if_pos rfl, ← H layer]
      rfl
    · rw [hcounts, if_neg fun he => hne (Option.some.inj he), Nat.sub_zero]

/-! ## Operations -/

theorem held?_eq_some : action.held? = some layer ↔ action = .layerHold layer := by
  cases action <;> simp [BasicAction.held?]

theorem givenUp_eq_some (h : resolver.unlatched operation = some key) :
    resolver.givenUp operation = some layer ↔ resolver.latched[key] = some (.layerHold layer) := by
  rw [givenUp, h]
  cases hl : resolver.latched[key] with
  | none => simp [hl]
  | some action => simp [hl, held?_eq_some]

theorem taken_eq_some (h : resolver.pressed operation = some (key, action)) :
    resolver.taken operation = some layer ↔ action = .layerHold layer := by
  rw [taken, h]
  exact held?_eq_some

theorem operate?_of_ne (h : operation ≠ .reset) : bytes.operate? resolver operation =
    (bytes.lower? (resolver.givenUp operation)).bind (·.raise? (resolver.taken operation)) := by
  cases operation with
  | reset => exact absurd rfl h
  | _ => rfl

/-- A key that is released gives up a hold that was counted. -/
theorem Count.release (H : bytes.Count resolver.holds) (hc : resolver.Counted)
    (hu : resolver.unlatched operation = some key) {before : Resolver}
    (hl : before.latched = resolver.latched) (hh : before.holds = resolver.holds) :
    ∃ lowered, bytes.lower? (resolver.givenUp operation) = some lowered ∧
      lowered.Count (before.release key).value.1.holds := by
  refine H.lower? (fun layer hgiven => ?_) fun layer => ?_
  · rw [hc layer]
    exact holders_pos ((givenUp_eq_some hu).mp hgiven)
  · simp only [release_holds, hl, hh, givenUp_eq_some hu]

/-- An operation neither takes a hold for which there is no room nor gives up one that is not
counted. -/
theorem Count.operate (H : bytes.Count resolver.holds) (hc : resolver.Counted)
    (operation : Operation) : ∃ next, bytes.operate? resolver operation = some next ∧
      next.Count (resolver.operate operation).holds := by
  rcases resolver.pressed_or_unlatched operation with
    ⟨key, action, hp⟩ | ⟨hp, key, hu⟩ | ⟨hp, hu⟩
  · obtain ⟨before, hbefore, heq⟩ := operate_of_pressed hp
    obtain ⟨hl, hh⟩ := books_of_marked hbefore
    obtain ⟨lowered, hlowered, Hlowered⟩ := H.release hc (unlatched_of_pressed hp) hl hh
    have hcounted := (hc.congr hl hh).release key
    obtain ⟨raised, hraised, Hraised⟩ : ∃ raised,
        lowered.raise? (resolver.taken operation) = some raised ∧
          raised.Count (before.press key action).value.holds := by
      refine Hlowered.raise? (fun layer _ => ?_) fun layer => ?_
      · rw [hcounted layer]
        exact Nat.lt_of_le_of_lt (holders_le _ layer) (by decide)
      · simp only [press_holds, taken_eq_some hp]
    refine ⟨raised, ?_, heq ▸ Hraised⟩
    rw [operate?_of_ne (by rintro rfl; cases hp), hlowered, Option.bind_some, hraised]
  · obtain ⟨before, hbefore, heq⟩ := operate_of_unlatched hp hu
    obtain ⟨hl, hh⟩ := books_of_marked hbefore
    obtain ⟨lowered, hlowered, Hlowered⟩ := H.release hc hu hl hh
    refine ⟨lowered, ?_, heq ▸ Hlowered⟩
    rw [operate?_of_ne (by rintro rfl; cases hu), hlowered, taken, hp]
    rfl
  · by_cases hr : operation = .reset
    · subst hr
      exact ⟨zero, rfl, count_zero⟩
    · obtain ⟨-, hh, -, -⟩ := (operate_of_neither hp hu).resolve_left hr
      refine ⟨bytes, ?_, hh ▸ H⟩
      rw [operate?_of_ne hr, givenUp, hu, taken, hp]
      rfl

/-- After every history the bytes are the hold counts, and none has run out of room or out of
holds. -/
theorem after?_eq_some (history : List Operation) :
    ∃ bytes, after? history = some bytes ∧ bytes.Count (Resolver.after history).holds := by
  induction history with
  | nil => exact ⟨zero, rfl, count_zero⟩
  | cons operation earlier ih =>
    obtain ⟨bytes, hbytes, H⟩ := ih
    obtain ⟨next, hnext, Hnext⟩ := H.operate (counted_after earlier) operation
    refine ⟨next, ?_, Hnext⟩
    rw [after?, hbytes]
    exact hnext

end HoldBytes

end Keystroke
