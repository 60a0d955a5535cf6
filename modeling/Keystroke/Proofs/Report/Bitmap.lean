import Keystroke.Report

/-!
# The bits of a bitmap

A bitmap is no more than its bits (`Bitmap.ext_isSet`), and a code has one bit of its own
(`KeyCode.HasBit`): a modifier in the modifier byte, any other code in the bytes for usages.
Inserting a code sets its bit and no other (`isSet_insert`). So the bits of the bitmap of a report
are those of its codes, in whatever order they came (`isSet_toBitmap`).
-/

namespace Keystroke

/-! ## Bytes -/

theorem testBit_or (a b : UInt8) (i : Nat) :
    (a ||| b).toNat.testBit i = (a.toNat.testBit i || b.toNat.testBit i) := by
  rw [UInt8.toNat_or, Nat.testBit_or]

theorem testBit_one_shiftLeft (n : UInt8) (i : Fin 8) :
    (1 <<< n : UInt8).toNat.testBit i = decide (n.toNat % 8 = i) := by
  rw [UInt8.toNat_shiftLeft, Nat.testBit_mod_two_pow, UInt8.toNat_one, Nat.one_shiftLeft,
    Nat.testBit_two_pow]
  simp [i.isLt]

/-- A byte is no more than its eight bits. -/
theorem eq_of_testBit_eq {a b : UInt8}
    (h : ∀ i : Fin 8, a.toNat.testBit i = b.toNat.testBit i) : a = b := by
  apply UInt8.toNat_inj.mp
  apply Nat.eq_of_testBit_eq
  intro i
  by_cases hi : i < 8
  · exact h ⟨i, hi⟩
  · have hlarge : 2 ^ 8 ≤ 2 ^ i := Nat.pow_le_pow_right (by decide) (by omega)
    rw [Nat.testBit_lt_two_pow (Nat.lt_of_lt_of_le a.toNat_lt hlarge),
      Nat.testBit_lt_two_pow (Nat.lt_of_lt_of_le b.toNat_lt hlarge)]

/-- Masking a byte with a single bit tells whether that bit is set. -/
theorem and_shiftLeft_ne_zero (a n : UInt8) (i : Fin 8) (h : n.toNat % 8 = i) :
    (a &&& 1 <<< n != 0) = a.toNat.testBit i := by
  have hbit : ∀ j : Fin 8, (a &&& 1 <<< n).toNat.testBit j =
      (a.toNat.testBit j && decide (i = j)) := by
    intro j
    rw [UInt8.toNat_and, Nat.testBit_and, testBit_one_shiftLeft, h]
    simp [Fin.ext_iff]
  cases ha : a.toNat.testBit i with
  | true =>
    rw [bne_iff_ne]
    intro hzero
    have hi := hbit i
    rw [hzero, ha] at hi
    simp at hi
  | false =>
    rw [bne_eq_false_iff_eq]
    apply eq_of_testBit_eq
    intro j
    rw [hbit, UInt8.toNat_zero, Nat.zero_testBit]
    by_cases hj : i = j
    · rw [← hj, ha]
      rfl
    · simp [hj]

/-! ## Bits and codes -/

namespace Bitmap

/-- A bit of a bitmap. -/
inductive Bit where
  | modifier (bit : Fin 8)
  | usage (byte : Fin 32) (bit : Fin 8)
  deriving DecidableEq, Repr

def isSet (bitmap : Bitmap) : Bit → Bool
  | .modifier bit => bitmap.modifiers.toNat.testBit bit
  | .usage byte bit => bitmap.bytes[byte].toNat.testBit bit

/-- A bitmap is no more than its bits. -/
theorem ext_isSet {bitmap other : Bitmap} (h : ∀ bit, bitmap.isSet bit = other.isSet bit) :
    bitmap = other := by
  obtain ⟨modifiers, bytes⟩ := bitmap
  obtain ⟨modifiers', bytes'⟩ := other
  congr 1
  · exact eq_of_testBit_eq fun bit => h (.modifier bit)
  · refine Slots.ext fun byte => ?_
    exact eq_of_testBit_eq fun bit => h (.usage byte bit)

end Bitmap

namespace KeyCode

/-- The bit is that of the code. The modifiers are counted from the left control key on, and a byte
for usages has eight of them. -/
def HasBit (code : KeyCode) : Bitmap.Bit → Prop
  | .modifier bit => code.usage.toNat = leftCtrl.usage.toNat + bit
  | .usage byte bit => code.isModifier = false ∧ code.usage.toNat = 8 * byte + bit

instance (code : KeyCode) : (bit : Bitmap.Bit) → Decidable (code.HasBit bit)
  | .modifier _ => inferInstanceAs (Decidable (_ = _))
  | .usage _ _ => inferInstanceAs (Decidable (_ ∧ _))

variable {code other : KeyCode} {bit bit' : Bitmap.Bit}

theorem isModifier_iff : code.isModifier = true ↔ leftCtrl.usage.toNat ≤ code.usage.toNat := by
  rw [isModifier, decide_eq_true_eq, UInt8.le_iff_toNat_le]

theorem usage_lt (code : KeyCode) : code.usage.toNat < leftCtrl.usage.toNat + 8 := by
  cases code <;> decide

theorem exists_hasBit (code : KeyCode) : ∃ bit, code.HasBit bit := by
  have hlt := code.usage_lt
  cases hm : code.isModifier with
  | true =>
    have hle := isModifier_iff.mp hm
    exact ⟨.modifier ⟨code.usage.toNat - leftCtrl.usage.toNat, by omega⟩,
      (Nat.add_sub_cancel' hle).symm⟩
  | false =>
    have hbyte := code.usage.toNat_lt
    exact ⟨.usage ⟨code.usage.toNat / 8, by omega⟩ ⟨code.usage.toNat % 8, by omega⟩, hm,
      (Nat.div_add_mod ..).symm⟩

/-- No two codes share a bit. -/
theorem HasBit.eq (h : code.HasBit bit) (h' : other.HasBit bit) : code = other := by
  apply usage_injective
  apply UInt8.toNat_inj.mp
  cases bit with
  | modifier bit => exact h.trans h'.symm
  | usage byte bit => exact h.2.trans h'.2.symm

end KeyCode

namespace Bitmap

variable {bitmap : Bitmap} {code : KeyCode} {bit : Bit}

theorem slot_fst_eq_iff {usage : UInt8} {byte : Fin 32} {bit : Fin 8} :
    (slot usage).1 = byte ∧ usage.toNat % 8 = bit ↔ usage.toNat = 8 * byte + bit := by
  have hbit := bit.isLt
  simp only [slot, Fin.ext_iff]
  omega

theorem modifier_mod_eq_iff {bit : Fin 8} (h : code.isModifier = true) :
    (code.usage - KeyCode.leftCtrl.usage).toNat % 8 = bit ↔ code.HasBit (.modifier bit) := by
  have hle := KeyCode.isModifier_iff.mp h
  have hlt := code.usage_lt
  have hbit := bit.isLt
  rw [UInt8.toNat_sub_of_le _ _ (UInt8.le_iff_toNat_le.mpr hle), KeyCode.HasBit]
  generalize KeyCode.leftCtrl.usage.toNat = first at hle hlt ⊢
  omega

theorem toNat_mod_eight (usage : UInt8) : (usage % 8).toNat % 8 = usage.toNat % 8 := by
  rw [UInt8.toNat_mod]
  exact Nat.mod_mod _ _

/-- Inserting a code sets its bit and leaves all others alone. -/
theorem isSet_insert (bitmap : Bitmap) (code : KeyCode) (bit : Bit) :
    (bitmap.insert code).isSet bit = (bitmap.isSet bit || decide (code.HasBit bit)) := by
  cases hm : code.isModifier with
  | true =>
    simp only [insert, KeyCode.modifierBit?, hm, if_true]
    cases bit with
    | modifier bit =>
      rw [isSet, testBit_or, testBit_one_shiftLeft]
      congr 1
      exact decide_eq_decide.mpr (modifier_mod_eq_iff hm)
    | usage byte bit =>
      have hnot : ¬code.HasBit (.usage byte bit) := fun h => by
        rw [h.1] at hm
        cases hm
      rw [decide_eq_false hnot, Bool.or_false]
      rfl
  | false =>
    simp only [insert, KeyCode.modifierBit?, hm, Bool.false_eq_true, if_false]
    cases bit with
    | modifier bit =>
      have hnot : ¬code.HasBit (.modifier bit) := fun h => by
        rw [KeyCode.isModifier_iff.mpr (Nat.le.intro h.symm)] at hm
        cases hm
      rw [decide_eq_false hnot, Bool.or_false]
      rfl
    | usage byte bit =>
      have hbit : code.HasBit (.usage byte bit) ↔
          (slot code.usage).1 = byte ∧ code.usage.toNat % 8 = bit :=
        (and_iff_right hm).trans slot_fst_eq_iff.symm
      simp only [isSet, Slots.getElem_set, hbit]
      by_cases hslot : (slot code.usage).1 = byte
      · rw [if_pos hslot, testBit_or, hslot]
        congr 1
        rw [slot, testBit_one_shiftLeft, toNat_mod_eight]
        simp
      · simp [hslot]

theorem contains_eq_isSet (h : code.HasBit bit) : bitmap.contains code = bitmap.isSet bit := by
  cases bit with
  | modifier bit =>
    have hm : code.isModifier = true := KeyCode.isModifier_iff.mpr (Nat.le.intro h.symm)
    simp only [contains, KeyCode.modifierBit?, hm, if_true]
    exact and_shiftLeft_ne_zero _ _ bit ((modifier_mod_eq_iff hm).mpr h)
  | usage byte bit =>
    obtain ⟨hslot, hmod⟩ := slot_fst_eq_iff.mpr h.2
    simp only [contains, KeyCode.modifierBit?, h.1, Bool.false_eq_true, if_false, hslot]
    exact and_shiftLeft_ne_zero _ _ bit ((toNat_mod_eight _).trans hmod)

theorem isSet_empty (bit : Bit) : isSet {} bit = false := by
  cases bit with
  | modifier bit => exact Nat.zero_testBit _
  | usage byte bit =>
    rw [isSet, Slots.getElem_fill]
    exact Nat.zero_testBit _

/-- In whatever order codes are inserted, they set their bits. -/
theorem isSet_foldl_insert (codes : List KeyCode) (bitmap : Bitmap) (bit : Bit) :
    (codes.foldl insert bitmap).isSet bit = true ↔
      bitmap.isSet bit = true ∨ ∃ code ∈ codes, code.HasBit bit := by
  induction codes generalizing bitmap with
  | nil => simp
  | cons code codes ih =>
    rw [List.foldl_cons, ih, isSet_insert, Bool.or_eq_true, decide_eq_true_eq, or_assoc]
    simp

theorem modifiers_foldl_insert (codes : List KeyCode) (bitmap : Bitmap) :
    (codes.foldl insert bitmap).modifiers =
      (codes.filterMap KeyCode.modifierBit?).foldl (· ||| ·) bitmap.modifiers := by
  induction codes generalizing bitmap with
  | nil => rfl
  | cons code codes ih =>
    rw [List.foldl_cons, ih, insert]
    cases hm : code.modifierBit? with
    | none => rw [List.filterMap_cons_none hm]
    | some bit => rw [List.filterMap_cons_some hm, List.foldl_cons]

end Bitmap

namespace Report

theorem isSet_toBitmap (report : Report) (bit : Bitmap.Bit) :
    report.toBitmap.isSet bit = true ↔ ∃ code, report.contains code = true ∧ code.HasBit bit := by
  rw [toBitmap, Bitmap.isSet_foldl_insert, Bitmap.isSet_empty]
  simp [contains]

theorem contains_toBitmap (report : Report) (code : KeyCode) :
    report.toBitmap.contains code = report.contains code := by
  obtain ⟨bit, hbit⟩ := code.exists_hasBit
  rw [Bitmap.contains_eq_isSet hbit, Bool.eq_iff_iff, isSet_toBitmap]
  constructor
  · rintro ⟨other, hother, hsame⟩
    rwa [hbit.eq hsame]
  · intro h
    exact ⟨code, h, hbit⟩

/-- The bitmap of a report is faithful. It contains the codes of the report and its modifier byte is
that of the report; each bit that is set is the bit of a code in the report. So two reports have
the same bitmap just if they contain the same codes, in whatever order these were inserted. -/
theorem bitmap_is_faithful (report : Report) :
    (∀ code, report.toBitmap.contains code = report.contains code) ∧
    report.toBitmap.modifiers = report.modifiers ∧
    (∀ bit, report.toBitmap.isSet bit = true ↔
      ∃ code, report.contains code = true ∧ code.HasBit bit) ∧
    ∀ other : Report, report.toBitmap = other.toBitmap ↔
      ∀ code, report.contains code = other.contains code := by
  refine ⟨report.contains_toBitmap, Bitmap.modifiers_foldl_insert report.codes {},
    report.isSet_toBitmap, fun other => ⟨fun h code => ?_, fun h => ?_⟩⟩
  · rw [← report.contains_toBitmap, h, other.contains_toBitmap]
  · apply Bitmap.ext_isSet
    intro bit
    rw [Bool.eq_iff_iff, isSet_toBitmap, isSet_toBitmap]
    simp only [h]

end Report

end Keystroke
