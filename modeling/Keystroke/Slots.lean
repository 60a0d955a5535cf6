/-!
# Tables with an entry for every index

`Slots n α` holds a value for every index below `n`. The index is a `Fin`, so that the look-up
`slots[i]` cannot fail. A table is no more than its look-ups (`Slots.ext`), and each operation is
described by what a look-up finds after it.
-/

namespace Keystroke

/-- A value for every index below `n`. -/
structure Slots (n : Nat) (α : Type) where
  entries : Vector α n
  deriving DecidableEq, Repr

namespace Slots

variable {n : Nat} {α β : Type}

instance : GetElem (Slots n α) (Fin n) α (fun _ _ => True) where
  getElem slots i _ := slots.entries.get i

/-- The table of the values of a function. -/
def ofFn (f : Fin n → α) : Slots n α := ⟨Vector.ofFn f⟩

/-- The table with the same value everywhere. -/
def fill (a : α) : Slots n α := ⟨Vector.replicate n a⟩

/-- The table with the value at one index replaced. -/
def set (slots : Slots n α) (i : Fin n) (a : α) : Slots n α := ⟨slots.entries.set i a i.isLt⟩

def map (f : α → β) (slots : Slots n α) : Slots n β := ⟨slots.entries.map f⟩

def toList (slots : Slots n α) : List α := slots.entries.toList

theorem getElem_eq (slots : Slots n α) (i : Fin n) : slots[i] = slots.entries[i.val] := rfl

/-- Two tables are the same if all their look-ups agree. -/
@[ext] theorem ext {slots other : Slots n α} (h : ∀ i : Fin n, slots[i] = other[i]) :
    slots = other := by
  obtain ⟨v⟩ := slots
  obtain ⟨w⟩ := other
  congr 1
  ext i hi
  exact h ⟨i, hi⟩

@[simp] theorem getElem_ofFn (f : Fin n → α) (i : Fin n) : (ofFn f)[i] = f i := by
  simp [getElem_eq, ofFn]

@[simp] theorem getElem_fill (a : α) (i : Fin n) : (fill a : Slots n α)[i] = a := by
  simp [getElem_eq, fill]

@[simp] theorem getElem_map (f : α → β) (slots : Slots n α) (i : Fin n) :
    (slots.map f)[i] = f slots[i] := by
  simp [getElem_eq, map]

/-- A replaced value is found at its index, and everywhere else what was there before. -/
theorem getElem_set (slots : Slots n α) (i j : Fin n) (a : α) :
    (slots.set i a)[j] = if i = j then a else slots[j] := by
  simp [getElem_eq, set, Vector.getElem_set, Fin.ext_iff]

@[simp] theorem getElem_set_self (slots : Slots n α) (i : Fin n) (a : α) :
    (slots.set i a)[i] = a := by
  simp [getElem_set]

theorem getElem_set_ne (slots : Slots n α) {i j : Fin n} (h : i ≠ j) (a : α) :
    (slots.set i a)[j] = slots[j] := by
  simp [getElem_set, h]

@[simp] theorem set_getElem_self (slots : Slots n α) (i : Fin n) : slots.set i slots[i] = slots := by
  ext j
  rw [getElem_set]
  split
  · next h => rw [h]
  · rfl

@[simp] theorem set_set (slots : Slots n α) (i : Fin n) (a b : α) :
    (slots.set i a).set i b = slots.set i b := by
  ext j
  simp only [getElem_set]
  split <;> rfl

theorem toList_eq_map (slots : Slots n α) :
    slots.toList = (List.finRange n).map fun i => slots[i] := by
  apply List.ext_getElem <;> simp [toList, getElem_eq]

theorem toList_set (slots : Slots n α) (i : Fin n) (a : α) :
    (slots.set i a).toList = slots.toList.set i a := by
  simp only [toList, set, Vector.toList_set]

/-- Replacing one value moves a count by what the old and the new value contribute. -/
theorem countP_toList_set (slots : Slots n α) (i : Fin n) (a : α) (p : α → Bool) :
    (slots.set i a).toList.countP p + (if p slots[i] then 1 else 0) =
      slots.toList.countP p + (if p a then 1 else 0) := by
  have hi : i.val < slots.toList.length := by simp [toList]
  have hget : slots.toList[i.val] = slots[i] := by simp [toList, getElem_eq]
  rw [toList_set, List.countP_set hi, hget]
  by_cases hp : p slots[i] = true
  · have hpos : 0 < slots.toList.countP p :=
      List.countP_pos_iff.mpr ⟨_, List.getElem_mem hi, by rw [hget]; exact hp⟩
    rw [if_pos hp]
    omega
  · rw [if_neg hp]
    omega

end Slots

end Keystroke
