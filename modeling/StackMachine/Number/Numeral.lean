import StackMachine.Decimal.Rounding
import StackMachine.Number.Basic

/-!
Contract: the text of a number.

A finite number is rounded to six significant digits.  It is written positionally when the
exponent of the rounded decimal is at least `-4` and below six, and with an exponent
otherwise.  In both notations trailing zeros of the fraction are dropped, and the point with
them when no digit is left behind it.

Owns: the choice of notation and both layouts.
Does not own: the rounding rule, or the text of other values.
-/

set_option autoImplicit false

namespace StackMachine.Number

/-- The number of significant digits that a numeral keeps. -/
def precision : Nat := 6

/-- The least exponent that is written positionally. -/
def leastPositionalExponent : Int := -4

/-- The least number of digits in a written exponent. -/
def exponentWidth : Nat := 2

/-- The number of decimal places that write a finite magnitude exactly: one for each power of two
in its denominator. -/
def exactPlaces (number : Number) : Nat :=
  unitPlaces - number.shift

/-- A finite magnitude as a whole number of units in its last exact decimal place. -/
def exactDigits (number : Number) : Nat :=
  (number.significand <<< (number.shift - unitPlaces)) * Nat.pow 5 number.exactPlaces

/-- The exact decimal is the magnitude: digits over their power of ten, and units over their power
of two, are one fraction. -/
theorem exactDigits_shiftLeft (number : Number) :
    number.exactDigits <<< unitPlaces = number.units * Decimal.tenPow number.exactPlaces := by
  have tenPow :
      Decimal.tenPow number.exactPlaces = 2 ^ number.exactPlaces * 5 ^ number.exactPlaces :=
    Nat.mul_pow 2 5 number.exactPlaces
  have places :
      number.shift - unitPlaces + unitPlaces = number.shift + number.exactPlaces := by
    rw [exactPlaces]
    omega
  have shifted :
      number.exactDigits =
        number.significand * 2 ^ (number.shift - unitPlaces) * 5 ^ number.exactPlaces := by
    rw [exactDigits, Nat.shiftLeft_eq, Nat.pow_eq]
  have moved : number.units = number.significand * 2 ^ number.shift :=
    Nat.shiftLeft_eq ..
  calc
    number.exactDigits <<< unitPlaces
        = number.significand * 2 ^ (number.shift - unitPlaces) * 5 ^ number.exactPlaces *
            2 ^ unitPlaces := by
          rw [Nat.shiftLeft_eq, shifted]
    _ = number.significand * (2 ^ (number.shift - unitPlaces) * 2 ^ unitPlaces) *
          5 ^ number.exactPlaces := by
          rw [Nat.mul_right_comm, Nat.mul_assoc number.significand]
    _ = number.units * Decimal.tenPow number.exactPlaces := by
          rw [← Nat.pow_add, places, Nat.pow_add, moved, tenPow, Nat.mul_assoc, Nat.mul_assoc,
            Nat.mul_assoc]

/-- The finite magnitude rounded to `precision` significant digits. -/
def rounded (number : Number) : Decimal.Significant :=
  .round precision number.exactDigits number.exactPlaces

/-- The digits without the zeros at their end. -/
def dropTrailingZeros (digits : List Char) : List Char :=
  (digits.reverse.dropWhile (· == '0')).reverse

/-- A point and the fraction digits up to the last one that is not zero; nothing if there is
none. -/
def fractionText (digits : List Char) : List Char :=
  match dropTrailingZeros digits with
  | [] => []
  | kept => '.' :: kept

/-- `significand` units of the decimal place `places` in positional notation. -/
def positional (significand places : Nat) : List Char :=
  Nat.toDigits 10 (significand / Decimal.tenPow places) ++
    fractionText (Decimal.zeroPadded places (significand % Decimal.tenPow places))

/-- The mark, sign and digits of a written exponent; the sign is always present. -/
def exponentText (exponent : Int) : List Char :=
  'e' :: (if exponent < 0 then '-' else '+') ::
    Decimal.zeroPadded exponentWidth exponent.natAbs

/-- The numeral of a rounded decimal, without a sign. -/
def magnitudeText (decimal : Decimal.Significant) : List Char :=
  if leastPositionalExponent ≤ decimal.exponent ∧ decimal.exponent < precision then
    positional decimal.significand (precision - 1 - decimal.exponent).toNat
  else
    positional decimal.significand (precision - 1) ++ exponentText decimal.exponent

/-- The minus sign of a number whose sign bit is set, zero included. -/
def signText (number : Number) : List Char :=
  if number.sign then ['-'] else []

/-- The text of a number.  What is not a number has no sign. -/
def text (number : Number) : String :=
  if number.isNaN then
    "nan"
  else if number.isInfinite then
    .ofList (number.signText ++ "inf".toList)
  else
    .ofList (number.signText ++ magnitudeText number.rounded)

end StackMachine.Number
