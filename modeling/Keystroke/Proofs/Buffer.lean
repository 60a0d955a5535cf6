import Keystroke.Slots

/-!
# Lists in fixed room

A `Buffer` keeps a list in a table that never grows. The slots below its size are in use; the others
keep whatever was written there before, which is no part of the list. Adding at the end fails just
if no slot is left, and removing closes the gap in place.
-/

namespace Keystroke

/-- A list of at most `n` entries in a table of `n` slots. -/
structure Buffer (n : Nat) (α : Type) where
  slots : Slots n α
  size : Nat
  size_le : size ≤ n
  deriving DecidableEq, Repr

namespace Buffer

variable {n : Nat} {α : Type}

/-- The buffer without entries, all of its slots filled. -/
def blank (filler : α) : Buffer n α := ⟨Slots.fill filler, 0, Nat.zero_le n⟩

/-- The list that a buffer keeps. -/
def contents (buffer : Buffer n α) : List α := buffer.slots.toList.take buffer.size

/-- Adds an entry at the end, if there is room. -/
def push? (buffer : Buffer n α) (a : α) : Option (Buffer n α) :=
  if h : buffer.size < n then some ⟨buffer.slots.set ⟨buffer.size, h⟩ a, buffer.size + 1, h⟩
  else none

/-- Removes the entry at a place. Those after it move down by one and the last slot in use stays as
it was. -/
def remove (buffer : Buffer n α) (i : Nat) : Buffer n α where
  slots := Slots.ofFn fun j =>
    if h : i ≤ j ∧ j + 1 < buffer.size then
      buffer.slots[(⟨j + 1, Nat.lt_of_lt_of_le h.2 buffer.size_le⟩ : Fin n)]
    else buffer.slots[j]
  size := buffer.size - 1
  size_le := Nat.le_trans (Nat.sub_le ..) buffer.size_le

/-- Forgets the entries and leaves the slots alone. -/
def truncate (buffer : Buffer n α) : Buffer n α := { buffer with size := 0, size_le := Nat.zero_le n }

variable {buffer : Buffer n α} {a : α} {i : Nat}

theorem getElem?_contents (buffer : Buffer n α) (i : Nat) : buffer.contents[i]? =
    if h : i < buffer.size then
      some buffer.slots[(⟨i, Nat.lt_of_lt_of_le h buffer.size_le⟩ : Fin n)]
    else none := by
  rw [contents, List.getElem?_take]
  by_cases h : i < buffer.size
  · have hi : i < n := Nat.lt_of_lt_of_le h buffer.size_le
    simp [h, hi, Slots.toList_eq_map]
  · simp [h]

@[simp] theorem length_contents (buffer : Buffer n α) : buffer.contents.length = buffer.size := by
  simp [contents, Slots.toList_eq_map, buffer.size_le]

@[simp] theorem contents_blank (filler : α) : (blank filler : Buffer n α).contents = [] :=
  List.take_zero

@[simp] theorem contents_truncate (buffer : Buffer n α) : buffer.truncate.contents = [] :=
  List.take_zero

/-- A buffer is no more than its list and the slots that are not in use. -/
theorem ext_contents {other : Buffer n α} (h : buffer.contents = other.contents)
    (hunused : ∀ i : Fin n, buffer.size ≤ i → buffer.slots[i] = other.slots[i]) :
    buffer = other := by
  have hsize : buffer.size = other.size := by
    rw [← buffer.length_contents, h, other.length_contents]
  have hslots : buffer.slots = other.slots := by
    ext i : 1
    by_cases hi : i < buffer.size
    · have hget : buffer.contents[i.val]? = other.contents[i.val]? := by rw [h]
      rw [getElem?_contents, getElem?_contents, dif_pos hi, dif_pos (hsize ▸ hi)] at hget
      exact Option.some.inj hget
    · exact hunused i (Nat.le_of_not_lt hi)
  obtain ⟨slots, size, hle⟩ := buffer
  obtain ⟨slots', size', hle'⟩ := other
  obtain rfl : slots = slots' := hslots
  obtain rfl : size = size' := hsize
  rfl

theorem length_slots (slots : Slots n α) : slots.toList.length = n := by
  rw [Slots.toList_eq_map, List.length_map, List.length_finRange]

/-- An entry that there is room for is added at the end. -/
theorem push?_eq_some (h : buffer.size < n) (a : α) :
    ∃ pushed, buffer.push? a = some pushed ∧ pushed.contents = buffer.contents ++ [a] ∧
      ∀ j : Fin n, pushed.size ≤ j → pushed.slots[j] = buffer.slots[j] := by
  refine ⟨_, dif_pos h, ?_, fun j hj => Slots.getElem_set_ne _ (fun he => ?_) a⟩
  · have hlast : buffer.size < (buffer.slots.toList.set buffer.size a).length := by
      rwa [List.length_set, length_slots]
    rw [contents, Slots.toList_set, ← List.take_append_getElem hlast, List.getElem_set_self,
      List.take_set_of_le (Nat.le_refl _), contents]
  · subst he
    exact Nat.not_succ_le_self _ hj

theorem contents_remove (h : i < buffer.size) :
    (buffer.remove i).contents = buffer.contents.eraseIdx i := by
  apply List.ext_getElem?
  intro j
  rw [List.getElem?_eraseIdx, getElem?_contents, getElem?_contents, getElem?_contents]
  simp only [remove, Slots.getElem_ofFn]
  -- a slot that stays in use has an entry after it, which it takes unless it is in front of the gap
  by_cases hj : j + 1 < buffer.size
  · have hsize : j < buffer.size - 1 := Nat.lt_sub_of_add_lt hj
    by_cases hi : j < i
    · simp [hsize, hi, Nat.lt_of_succ_lt hj, Nat.not_le_of_lt hi]
    · simp [hsize, hi, hj, Nat.le_of_not_lt hi]
  · have hsize : ¬j < buffer.size - 1 := fun hlt => hj (Nat.add_lt_of_lt_sub hlt)
    have hi : ¬j < i := by omega
    simp [hsize, hi, hj]

end Buffer

end Keystroke
