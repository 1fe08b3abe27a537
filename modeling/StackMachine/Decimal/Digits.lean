/-!
Contract: decimal digits of natural numbers.

Owns:
- the powers of ten;
- the number of decimal digits of a natural number;
- the digit text of a natural number, padded with zeros to a least width.

Does not own: rounding, points, exponents, or signs.
-/

set_option autoImplicit false

namespace StackMachine.Decimal

/-! ## Powers of ten -/

/-- Ten to the power `exponent`. -/
def tenPow (exponent : Nat) : Nat :=
  Nat.pow 10 exponent

@[simp] theorem tenPow_zero : tenPow 0 = 1 :=
  rfl

theorem tenPow_succ (exponent : Nat) : tenPow (exponent + 1) = tenPow exponent * 10 :=
  rfl

theorem tenPow_pos (exponent : Nat) : 0 < tenPow exponent :=
  Nat.pow_pos (by decide)

theorem tenPow_add (left right : Nat) : tenPow (left + right) = tenPow left * tenPow right :=
  Nat.pow_add 10 left right

/-! ## Counting digits -/

/-- The number of digits that a count passes over at once in a large number. -/
def stride : Nat := 18

/-- The number of decimal digits of `number`; zero has one digit. -/
def digitCount (number : Nat) : Nat :=
  if number < 10 then
    1
  else if number < tenPow stride then
    digitCount (number / 10) + 1
  else
    digitCount (number / tenPow stride) + stride
termination_by number
decreasing_by
  · omega
  · exact Nat.div_lt_self (by omega) (by decide)

theorem digitCount_pos (number : Nat) : 0 < digitCount number := by
  fun_induction digitCount number with
  | case1 number small => omega
  | case2 number large inside inductionHypothesis => omega
  | case3 number large beyond inductionHypothesis => omega

/-- A number lies below the power of ten of its digit count. -/
theorem lt_tenPow_digitCount (number : Nat) : number < tenPow (digitCount number) := by
  fun_induction digitCount number with
  | case1 number small => exact small
  | case2 number large inside inductionHypothesis =>
      rw [tenPow_succ]
      exact (Nat.div_lt_iff_lt_mul (by decide)).mp inductionHypothesis
  | case3 number large beyond inductionHypothesis =>
      rw [tenPow_add]
      exact (Nat.div_lt_iff_lt_mul (tenPow_pos stride)).mp inductionHypothesis

/-- A positive number reaches the power of ten one below its digit count. -/
theorem tenPow_digitCount_le
    {number : Nat}
    (positive : 0 < number) :
    tenPow (digitCount number - 1) ≤ number := by
  fun_induction digitCount number with
  | case1 number small => exact positive
  | case2 number large inside inductionHypothesis =>
      have shorter := inductionHypothesis (by omega)
      have countPos := digitCount_pos (number / 10)
      have split : digitCount (number / 10) + 1 - 1 = digitCount (number / 10) - 1 + 1 := by
        omega
      rw [split, tenPow_succ]
      exact (Nat.le_div_iff_mul_le (by decide)).mp shorter
  | case3 number large beyond inductionHypothesis =>
      have reaches : tenPow stride ≤ number := by
        omega
      have shorter := inductionHypothesis (Nat.div_pos reaches (tenPow_pos stride))
      have countPos := digitCount_pos (number / tenPow stride)
      have split :
          digitCount (number / tenPow stride) + stride - 1 =
            digitCount (number / tenPow stride) - 1 + stride := by
        omega
      rw [split, tenPow_add]
      exact (Nat.le_div_iff_mul_le (tenPow_pos stride)).mp shorter

/-! ## Digit texts -/

/-- The decimal digits of `number`, with zeros in front up to `width` characters. -/
def zeroPadded (width number : Nat) : List Char :=
  (Nat.toDigits 10 number).leftpad width '0'

/-- Padding fills up to the width and never cuts digits. -/
theorem length_zeroPadded (width number : Nat) :
    (zeroPadded width number).length = max width (Nat.toDigits 10 number).length := by
  exact List.length_leftpad

end StackMachine.Decimal
