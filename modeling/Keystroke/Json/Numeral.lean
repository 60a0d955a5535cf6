/-!
# Numerals

A numeral as it is written in JSON, the natural number it stands for, and whether it is in the range
of double precision. Only the first digits count for the range, as many as fit in 64 bits; they, the
power of ten they are scaled by and the product are each rounded to a double, in this order. This
comes to the same as one rounding except close to the end of the range. The JSON package is assumed
to go about it in this way, and to round to the nearest double, ties to even.
-/

namespace Keystroke.Json

/-- A numeral as it is written. -/
structure Numeral where
  negative : Bool
  whole : List Char
  fraction : List Char
  exponent : Option Int
  deriving DecidableEq, Repr

/-- A value with a decimal digit written after it. -/
def appendDigit (value : Nat) (digit : Char) : Nat := 10 * value + (digit.toNat - '0'.toNat)

/-- The value of a list of decimal digits. -/
def digitsValue (digits : List Char) : Nat := digits.foldl appendDigit 0

/-- Appends digits to a value up to the first with which it would not fit in 64 bits: the value, and
the digits that are left. -/
def absorb (value : Nat) : List Char → Nat × List Char
  | [] => (value, [])
  | digit :: digits =>
    if appendDigit value digit < UInt64.size then absorb (appendDigit value digit) digits
    else (value, digit :: digits)

/-- The integer that is nearest to a quotient; of two equally near ones, the even one. -/
def roundDiv (n d : Nat) : Nat :=
  if 2 * (n % d) < d then n / d
  else if d < 2 * (n % d) then n / d + 1
  else n / d + n / d % 2

/-- A natural number rounded to the 53 significant bits of a double. -/
def roundToDouble (n : Nat) : Nat :=
  let unit := Nat.pow 2 (n.log2 + 1 - 53)
  roundDiv n unit * unit

namespace Numeral

/-- The magnitude of a numeral as `m · 10 ^ e`, as far as its first digits tell. Digits of the whole
part that are left out raise the exponent, and those of the fraction that are not lower it. -/
def scaled (n : Numeral) : Nat × Int :=
  let (whole, dropped) := absorb 0 n.whole
  let (value, unread) := absorb whole n.fraction
  let places : Int := n.fraction.length - unread.length
  (value, n.exponent.getD 0 + dropped.length - places)

/-- The magnitude is beyond the range of doubles. -/
def isInfinite (n : Numeral) : Bool :=
  let (value, exponent) := n.scaled
  if value = 0 ∨ exponent < 0 then false
  else if 308 < exponent then true
  else
    let power := Nat.pow 10 exponent.toNat
    Nat.pow 2 1024 ≤ roundToDouble (roundToDouble value * roundToDouble power)

/-- The number of at most 64 bits that a numeral without sign, fraction and exponent stands for. -/
def natural? (n : Numeral) : Option Nat :=
  if n.negative || !n.fraction.isEmpty || n.exponent.isSome then none
  else
    match absorb 0 n.whole with
    | (value, []) => some value
    | _ => none

end Numeral

end Keystroke.Json
