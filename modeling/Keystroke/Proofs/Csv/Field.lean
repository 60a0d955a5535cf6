import Mathlib
import Keystroke.Proofs.Csv.Written
import Keystroke.Proofs.Json.Numeral
import Keystroke.Trace.Csv

/-!
# What a field says

The bytes of a text are read back as that text without the blanks around it (`fieldText?_encode`,
`Padded.trim_eq`), and a whole number in decimal as that number if it is below the bound that is
asked for (`Decimal.number?_eq`).
-/

namespace Keystroke

namespace Text

/-- A text with blanks on both sides. -/
def Padded (core text : List Char) : Prop :=
  ∃ left right, (∀ char ∈ left, isBlank char = true) ∧ (∀ char ∈ right, isBlank char = true) ∧
    text = left ++ (core ++ right)

variable {core text : List Char}

theorem dropWhile_isBlank (h : ∀ char ∈ core, isBlank char = false) (hne : core ≠ [])
    (rest : List Char) : (core ++ rest).dropWhile isBlank = core ++ rest := by
  obtain ⟨first, more, rfl⟩ := List.exists_cons_of_ne_nil hne
  rw [List.cons_append, List.dropWhile_cons, h first List.mem_cons_self]
  rfl

/-- The blanks around a word are removed. -/
theorem Padded.trim_eq (H : Padded core text) (h : ∀ char ∈ core, isBlank char = false)
    (hne : core ≠ []) : trim text = core := by
  obtain ⟨left, right, hleft, hright, rfl⟩ := H
  have hreverse : ∀ char ∈ core.reverse, isBlank char = false := fun char hm =>
    h char (List.mem_reverse.mp hm)
  have hback := dropWhile_isBlank hreverse (List.reverse_ne_nil_iff.mpr hne) []
  rw [List.append_nil] at hback
  rw [trim, List.dropWhile_append_of_pos hleft, dropWhile_isBlank h hne, List.reverse_append,
    List.dropWhile_append_of_pos fun char hm => hright char (List.mem_reverse.mp hm), hback,
    List.reverse_reverse]

/-- A text is what is left of it with blanks on both sides. -/
theorem padded_trim (text : List Char) : Padded (trim text) text := by
  let back := (text.dropWhile isBlank).reverse
  refine ⟨text.takeWhile isBlank, (back.takeWhile isBlank).reverse,
    fun char hm => List.mem_takeWhile_imp hm,
    fun char hm => List.mem_takeWhile_imp (List.mem_reverse.mp hm), ?_⟩
  have hback : trim text ++ (back.takeWhile isBlank).reverse = text.dropWhile isBlank := by
    rw [trim, ← List.reverse_append, List.takeWhile_append_dropWhile, List.reverse_reverse]
  rw [hback, List.takeWhile_append_dropWhile]

end Text

namespace Csv

/-- The bytes of a text are read back. -/
theorem fieldText?_encode (text : List Char) :
    fieldText? (encode text) = some (Text.trim text) := by
  have hbytes : (⟨(encode text).toArray⟩ : ByteArray) = text.utf8Encode := by
    rw [ByteArray.ext_iff, List.utf8Encode, List.data_toByteArray]
    rfl
  have htext : String.fromUTF8? ⟨(encode text).toArray⟩ = some (String.ofList text) := by
    rw [hbytes, String.fromUTF8?, dif_pos ByteArray.isValidUTF8_utf8Encode]
    rfl
  rw [fieldText?, htext, Option.map_some, String.toList_ofList]

/-! ## Numbers -/

/-- A whole number in decimal. Leading zeros and a plus sign are free, a minus sign is for numbers
below zero. -/
inductive Decimal : Int → List Char → Prop
  | plain {digits : List Char} : Json.Digits digits → Decimal (Json.digitsValue digits) digits
  | plus {digits : List Char} : Json.Digits digits →
      Decimal (Json.digitsValue digits) ('+' :: digits)
  | minus {digits : List Char} : Json.Digits digits → 0 < Json.digitsValue digits →
      Decimal (-Json.digitsValue digits) ('-' :: digits)

variable {char : Char} {digits text : List Char} {number : Int}

theorem digit?_of_isDigit (h : char.isDigit = true) :
    digit? 10 char = some (char.toNat - '0'.toNat) := by
  have hten : char.toNat - '0'.toNat < 10 := by
    have hnine : char.toNat ≤ '9'.toNat := (Char.isDigit_iff_toNat.mp h).2
    exact Nat.lt_succ_of_le (Nat.sub_le_of_le_add hnine)
  rw [digit?, if_pos h]
  exact if_pos (decide_eq_true hten)

theorem foldlM_digit? (h : ∀ digit ∈ digits, digit.isDigit = true) (value : Nat) :
    digits.foldlM (fun value char => (digit? 10 char).map (10 * value + ·)) value =
      some (digits.foldl Json.appendDigit value) := by
  induction digits generalizing value with
  | nil => rfl
  | cons digit digits ih =>
    rw [List.foldlM_cons, digit?_of_isDigit (h digit List.mem_cons_self)]
    exact ih (fun other hm => h other (List.mem_cons_of_mem _ hm)) _

theorem ofDigits?_eq (H : Json.Digits digits) :
    ofDigits? 10 digits = some (Json.digitsValue digits) := by
  obtain ⟨first, more, rfl⟩ := List.exists_cons_of_ne_nil H.ne_nil
  exact foldlM_digit? H.isDigit 0

theorem signed?_eq (H : Json.Digits digits) :
    signed? 10 digits = some (Json.digitsValue digits) := by
  unfold signed?
  split
  · exact absurd (H.isDigit '+' List.mem_cons_self) (by decide)
  · exact ofDigits?_eq H

theorem number?_of_ne_hexadecimal (h : ∀ rest, text ≠ '0' :: 'x' :: rest) (bound : Nat) :
    number? bound text = (signed? 10 text).filter (· < bound) := by
  unfold number?
  split
  · next rest => exact absurd rfl (h rest)
  · rfl

/-- A number is read from its decimal form if it is below the bound. -/
theorem Decimal.number?_eq (H : Decimal number text) (bound : Nat) :
    number? bound text = if 0 ≤ number ∧ number < bound then some number.toNat else none := by
  have hnatural : ∀ value : Nat, (some value).filter (· < bound) =
      if 0 ≤ (value : Int) ∧ (value : Int) < bound then some (value : Int).toNat else none := by
    intro value
    by_cases h : value < bound <;> simp [h, Nat.not_lt.mp]
  cases H with
  | plain H =>
    have hplain : ∀ rest, text ≠ '0' :: 'x' :: rest := by
      rintro rest rfl
      exact absurd (H.isDigit 'x' (by simp)) (by decide)
    rw [number?_of_ne_hexadecimal hplain, signed?_eq H, hnatural]
  | @plus digits H =>
    have hsigned : signed? 10 ('+' :: digits) = some (Json.digitsValue digits) := ofDigits?_eq H
    rw [number?_of_ne_hexadecimal (by simp), hsigned, hnatural]
  | @minus digits H hpos =>
    have hbelow : ¬(0 ≤ -(Json.digitsValue digits : Int) ∧
        -(Json.digitsValue digits : Int) < bound) := by omega
    rw [number?_of_ne_hexadecimal (by simp), if_neg hbelow]
    rfl

theorem isBlank_of_isDigit (h : char.isDigit = true) : Text.isBlank char = false := by
  have hlow : 48 ≤ char.toNat := (Char.isDigit_iff_toNat.mp h).1
  have hhigh : char.toNat ≤ 57 := (Char.isDigit_iff_toNat.mp h).2
  simp only [Text.isBlank, Bool.or_eq_false_iff, Bool.and_eq_false_iff, decide_eq_false_iff_not]
  omega

/-- A number is no blanks and more than nothing. -/
theorem Decimal.trim_eq {field : List Char} (H : Decimal number text)
    (hfield : Text.Padded text field) : Text.trim field = text := by
  have hsigned : ∀ {sign : Char} {digits : List Char}, Text.isBlank sign = false →
      Json.Digits digits → ∀ char ∈ sign :: digits, Text.isBlank char = false := by
    intro sign digits hsign hdigits
    rw [List.forall_mem_cons]
    exact ⟨hsign, fun char hm => isBlank_of_isDigit (hdigits.isDigit char hm)⟩
  cases H with
  | plain H => exact hfield.trim_eq (fun char hm => isBlank_of_isDigit (H.isDigit char hm)) H.ne_nil
  | plus H => exact hfield.trim_eq (hsigned rfl H) (List.cons_ne_nil _ _)
  | minus H => exact hfield.trim_eq (hsigned rfl H) (List.cons_ne_nil _ _)

end Csv

end Keystroke
