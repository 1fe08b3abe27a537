import StackMachine.Decimal.Digits

/-!
Contract: rounding of exact decimal fractions to a number of significant digits.

Owns:
- division to the nearest integer, a tie going to the even neighbour;
- `Significant`, a decimal given by its leading digits and its exponent;
- the rounding of `value / 10 ^ scale` to such a decimal.

Does not own: where the fraction comes from, or how the decimal is written.
-/

set_option autoImplicit false

namespace StackMachine.Decimal

/-- The integer nearest to `numerator / denominator`; of two nearest ones, the even one. -/
def roundHalfEven (numerator denominator : Nat) : Nat :=
  let quotient := numerator / denominator
  let twiceRemainder := 2 * (numerator % denominator)
  if twiceRemainder < denominator then
    quotient
  else if denominator < twiceRemainder then
    quotient + 1
  else
    quotient + quotient % 2

/-- **Nearest.** The rounded quotient is within half a unit of the exact one. -/
theorem roundHalfEven_within_half
    (numerator : Nat)
    {denominator : Nat}
    (positive : 0 < denominator) :
    2 * numerator ≤ 2 * (denominator * roundHalfEven numerator denominator) + denominator ∧
      2 * (denominator * roundHalfEven numerator denominator) ≤ 2 * numerator + denominator := by
  have division := Nat.div_add_mod numerator denominator
  have remainderLt := Nat.mod_lt numerator positive
  have even := Nat.mod_two_eq_zero_or_one (numerator / denominator)
  unfold roundHalfEven
  dsimp only
  split
  · omega
  · split
    · rw [Nat.mul_add]
      omega
    · rcases even with evenQuotient | oddQuotient
      · rw [evenQuotient, Nat.add_zero]
        omega
      · rw [oddQuotient, Nat.mul_add]
        omega

/-- **Ties.** Half way between two integers, the rounded quotient is even. -/
theorem roundHalfEven_tie
    {numerator denominator : Nat}
    (tie : 2 * (numerator % denominator) = denominator) :
    roundHalfEven numerator denominator % 2 = 0 := by
  unfold roundHalfEven
  simp only [tie, Nat.lt_irrefl, if_false]
  omega

/-- A decimal with a fixed number `digits` of significant digits: `significand` holds them as
one natural number, and `exponent` is the power of ten of the first of them.  It stands for
`significand * 10 ^ (exponent + 1 - digits)`; zero has exponent zero. -/
structure Significant where
  significand : Nat
  exponent : Int
deriving DecidableEq, Repr

namespace Significant

/-- `value / 10 ^ scale` rounded to `digits` significant digits, a tie going to the even last
digit.  A significand that rounds up to the next power of ten moves the exponent up by one. -/
def round (digits value scale : Nat) : Significant :=
  if value = 0 then
    ⟨0, 0⟩
  else
    let count := digitCount value
    let significand := roundHalfEven (value * tenPow (digits - count)) (tenPow (count - digits))
    if significand = tenPow digits then
      ⟨tenPow (digits - 1), count - scale⟩
    else
      ⟨significand, count - 1 - scale⟩

@[simp] theorem round_zero (digits scale : Nat) : round digits 0 scale = ⟨0, 0⟩ := rfl

end Significant

end StackMachine.Decimal
