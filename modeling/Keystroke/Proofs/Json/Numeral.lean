import Mathlib
import Keystroke.Json.Reader

/-!
# Natural numbers as numerals

The decimal digits of a natural number are read back as that number (`number_decimal`): they have
the value of the number, no leading zero and, below `2 ^ 53`, no part in the rounding to doubles.
-/

namespace Keystroke.Json

/-- What can follow a value in a text: nothing, or a character that is no part of a numeral. -/
inductive Follows : List Char → Prop where
  | nothing : Follows []
  | other {char : Char} {text : List Char} : char.isDigit = false → char ≠ '.' → char ≠ 'e' →
      char ≠ 'E' → Follows (char :: text)

/-- The digits of a number. -/
abbrev decimal (n : Nat) : List Char := Nat.toDigits 10 n

variable {α β : Type} {n : Nat} {text rest : List Char}

/-- A reader that has found something goes on from there. -/
theorem bind_of_ok {reader : Reader α} {next : α → Reader β} {a : α}
    (h : reader text = .ok (a, rest)) : (reader >>= next) text = next a rest := by
  change (reader text >>= fun p => next p.1 p.2) = _
  rw [h]
  rfl

/-! ## The value of digits -/

theorem digitsValue_append (digits more : List Char) :
    digitsValue (digits ++ more) = more.foldl appendDigit (digitsValue digits) :=
  List.foldl_append

theorem digit_value (h : n < 10) : n.digitChar.toNat - '0'.toNat = n := by
  revert h n
  decide

theorem digitsValue_decimal (n : Nat) : digitsValue (decimal n) = n := by
  induction n using Nat.strong_induction_on with
  | h n ih =>
    rw [decimal, Nat.toDigits_eq_if (by decide)]
    split
    · next h =>
      rw [digitsValue, List.foldl_cons, List.foldl_nil, appendDigit, digit_value h]
      omega
    · next h =>
      have hless : n / 10 < n := by omega
      rw [digitsValue_append, ih _ hless, List.foldl_cons, List.foldl_nil, appendDigit,
        digit_value (Nat.mod_lt n (by decide))]
      omega

theorem le_foldl_appendDigit (digits : List Char) (value : Nat) :
    value ≤ digits.foldl appendDigit value := by
  induction digits generalizing value with
  | nil => exact Nat.le_refl value
  | cons digit digits ih =>
    refine Nat.le_trans ?_ (ih _)
    rw [appendDigit]
    omega

/-- All digits are absorbed if their value fits. -/
theorem absorb_of_lt {digits : List Char} {value : Nat}
    (h : digits.foldl appendDigit value < UInt64.size) :
    absorb value digits = (digits.foldl appendDigit value, []) := by
  induction digits generalizing value with
  | nil => rfl
  | cons digit digits ih =>
    have hfits := Nat.lt_of_le_of_lt (le_foldl_appendDigit digits _) h
    rw [absorb, if_pos hfits]
    exact ih h

theorem absorb_decimal (h : n < UInt64.size) : absorb 0 (decimal n) = (n, []) := by
  have hvalue := digitsValue_decimal n
  rw [digitsValue] at hvalue
  rw [absorb_of_lt (by rwa [hvalue]), hvalue]

/-! ## Numerals without sign, fraction and exponent -/

/-- A numeral that is digits and nothing else. -/
def Numeral.plain (digits : List Char) : Numeral := ⟨false, digits, [], none⟩

theorem natural?_plain (h : n < UInt64.size) : (Numeral.plain (decimal n)).natural? = some n := by
  simp only [Numeral.natural?, Numeral.plain, absorb_decimal h]
  rfl

theorem roundToDouble_of_lt (h : n < 2 ^ 53) : roundToDouble n = n := by
  have hlog : n.log2 + 1 - 53 = 0 := by
    by_cases h0 : n = 0
    · rw [h0]
      decide
    · have := (Nat.log2_lt h0).mpr h
      omega
  have hunit : Nat.pow 2 (n.log2 + 1 - 53) = 1 := by
    rw [hlog]
  rw [roundToDouble, hunit, roundDiv, Nat.mod_one, Nat.div_one, Nat.mul_one]
  exact if_pos (by decide)

theorem isInfinite_plain (h : n < 2 ^ 53) : (Numeral.plain (decimal n)).isInfinite = false := by
  have hsize : n < UInt64.size := Nat.lt_trans h (by decide)
  have hscaled : (Numeral.plain (decimal n)).scaled = (n, 0) := by
    simp only [Numeral.scaled, Numeral.plain, absorb_decimal hsize, absorb]
    rfl
  have hpower : Nat.pow 10 (0 : Int).toNat = 1 := rfl
  have hround := roundToDouble_of_lt h
  have hbig : ∀ k, 53 ≤ k → ¬Nat.pow 2 k ≤ n := fun k hk =>
    Nat.not_le.mpr (Nat.lt_of_lt_of_le h (Nat.pow_le_pow_right (by decide) hk))
  have hone : roundToDouble 1 = 1 := roundToDouble_of_lt (by decide)
  simp only [Numeral.isInfinite, hscaled, hpower, hround, hone, Nat.mul_one,
    hbig 1024 (by decide)]
  split
  · rfl
  · rfl

/-! ## Reading digits -/

theorem isDigit_of_mem_decimal {digit : Char} (h : digit ∈ decimal n) : digit.isDigit = true :=
  Nat.isDigit_of_mem_toDigits (by decide) (by decide) h

/-- The text does not go on with a digit. -/
def NoDigit (text : List Char) : Prop := ∀ char ∈ text.head?, char.isDigit = false

theorem digits_append {found : List Char} (hd : ∀ digit ∈ found, digit.isDigit = true)
    (hrest : NoDigit rest) : digits (found ++ rest) = .ok (found, rest) := by
  have hstop : rest.takeWhile Char.isDigit = [] ∧ rest.dropWhile Char.isDigit = rest := by
    cases rest with
    | nil => exact ⟨rfl, rfl⟩
    | cons char rest => simp [hrest char rfl]
  change Except.ok ((found ++ rest).takeWhile Char.isDigit,
    (found ++ rest).dropWhile Char.isDigit) = _
  rw [List.takeWhile_append_of_pos hd, List.dropWhile_append_of_pos hd, hstop.1, hstop.2,
    List.append_nil]

theorem Follows.noDigit (H : Follows rest) : NoDigit rest := by
  cases H with
  | nothing => exact nofun
  | other hdigit =>
    intro char hchar
    obtain rfl := Option.some.inj hchar
    exact hdigit

/-- Only zero begins with a zero. -/
theorem head?_decimal (h : 0 < n) : (decimal n).head? ≠ some '0' := by
  induction n using Nat.strong_induction_on with
  | h n ih =>
    rw [decimal, Nat.toDigits_eq_if (by decide)]
    split
    · next hn =>
      have hdigit : ∀ n < 10, 0 < n → n.digitChar ≠ '0' := by decide
      exact fun he => hdigit n hn h (Option.some.inj he)
    · next hn =>
      have hless : n / 10 < n := by omega
      have hpos : 0 < n / 10 := by omega
      rw [List.head?_append_of_ne_nil _ Nat.toDigits_ne_nil]
      exact ih _ hless hpos

theorem someDigits_of_ok {found : List Char} {atEnd : Fault}
    (h : digits text = .ok (found, rest)) (hne : found ≠ []) :
    someDigits atEnd text = .ok (found, rest) := by
  rw [someDigits, bind_of_ok h]
  cases found with
  | nil => exact absurd rfl hne
  | cons digit more => rfl

/-- Decimal digits, at least one. -/
structure Digits (found : List Char) : Prop where
  ne_nil : found ≠ []
  isDigit : ∀ digit ∈ found, digit.isDigit = true

theorem digits_decimal (n : Nat) : Digits (decimal n) :=
  ⟨Nat.toDigits_ne_nil, fun _ => isDigit_of_mem_decimal⟩

theorem Digits.someDigits_append {found : List Char} (H : Digits found) (hrest : NoDigit rest)
    (atEnd : Fault) : someDigits atEnd (found ++ rest) = .ok (found, rest) :=
  someDigits_of_ok (digits_append H.isDigit hrest) H.ne_nil

theorem wholePart_of_ok {found : List Char} {atEnd : Fault}
    (h : someDigits atEnd text = .ok (found, rest))
    (hzero : ∀ second more, found ≠ '0' :: second :: more) :
    wholePart atEnd text = .ok (found, rest) := by
  rw [wholePart, bind_of_ok h]
  split
  · exact absurd rfl (hzero _ _)
  · rfl

theorem wholePart_decimal (H : NoDigit rest) (atEnd : Fault) :
    wholePart atEnd (decimal n ++ rest) = .ok (decimal n, rest) := by
  apply wholePart_of_ok ((digits_decimal n).someDigits_append H atEnd)
  intro second more he
  -- zero has one digit, and no other number begins with a zero
  rcases Nat.eq_zero_or_pos n with rfl | hpos
  · cases he
  · exact head?_decimal hpos (by rw [he]; rfl)

theorem fractionPart_of_ne_point (h : ∀ tail, text ≠ '.' :: tail) (atEnd : Fault) :
    fractionPart atEnd text = .ok ([], text) := by
  have hget : (get : Reader (List Char)) text = .ok (text, text) := rfl
  rw [fractionPart, bind_of_ok hget]
  split
  · exact absurd rfl (h _)
  · rfl

theorem exponentPart_of_ne_letter (h : ∀ tail, text ≠ 'e' :: tail ∧ text ≠ 'E' :: tail)
    (atEnd : Fault) : exponentPart atEnd text = .ok (none, text) := by
  have hget : (get : Reader (List Char)) text = .ok (text, text) := rfl
  rw [exponentPart, bind_of_ok hget]
  split
  · exact absurd rfl (h _).1
  · exact absurd rfl (h _).2
  · rfl

theorem Follows.ne_point (H : Follows rest) (tail : List Char) : rest ≠ '.' :: tail := by
  cases H with
  | nothing => exact nofun
  | other _ hpoint => exact fun he => hpoint (List.cons.inj he).1

theorem Follows.ne_letter (H : Follows rest) (tail : List Char) :
    rest ≠ 'e' :: tail ∧ rest ≠ 'E' :: tail := by
  cases H with
  | nothing => exact ⟨nofun, nofun⟩
  | other _ _ hlower hupper =>
    exact ⟨fun he => hlower (List.cons.inj he).1, fun he => hupper (List.cons.inj he).1⟩

theorem numeral_of_ne_minus {atEnd : Fault} (h : ∀ tail, text ≠ '-' :: tail) :
    numeral atEnd text = (do
      let whole ← wholePart atEnd
      let fraction ← fractionPart atEnd
      let exponent ← exponentPart atEnd
      pure { negative := false, whole, fraction, exponent } : Reader Numeral) text := by
  have hget : (get : Reader (List Char)) text = .ok (text, text) := rfl
  rw [numeral, bind_of_ok hget]
  split
  · exact absurd rfl (h _)
  · rfl

theorem numeral_decimal (H : Follows rest) (atEnd : Fault) :
    numeral atEnd (decimal n ++ rest) = .ok (.plain (decimal n), rest) := by
  have hminus : ∀ tail, decimal n ++ rest ≠ '-' :: tail := by
    intro tail he
    cases h : decimal n with
    | nil => exact Nat.toDigits_ne_nil h
    | cons digit more =>
      rw [h] at he
      cases he
      have hdigit := isDigit_of_mem_decimal (h ▸ List.mem_cons_self)
      cases hdigit
  rw [numeral_of_ne_minus hminus, bind_of_ok (wholePart_decimal H.noDigit atEnd),
    bind_of_ok (fractionPart_of_ne_point H.ne_point atEnd),
    bind_of_ok (exponentPart_of_ne_letter H.ne_letter atEnd)]
  rfl

theorem number_decimal (H : Follows rest) (h : n < 2 ^ 53) :
    number (decimal n ++ rest) = .ok (some n, rest) := by
  rw [number, bind_of_ok (numeral_decimal H _), isInfinite_plain h,
    natural?_plain (Nat.lt_trans h (by decide))]
  rfl

end Keystroke.Json
