import Mathlib.Algebra.Order.Floor.Semifield
import StackMachine.Proofs.TwoPassFormatting

/-!
Contract: which of all numerals for a decimal is written.

The decimal exponent of the rounded number decides between the notations.  In both of them there are
no zeros to be left out: none in front of the integer part, none at the end of the fraction, and no
point without a fraction.  Zeros that carry weight stay, such as those at the end of an integer.

Owns:
- `WrittenFraction`, `InExponentNotation` and `InPositionalNotation`, the form of numerals without
  regard to how they come about;
- that the numeral of every finite number has the form which its exponent asks for.

Does not own: the number that a numeral stands for.
-/

set_option autoImplicit false

namespace StackMachine

/-! ## Forms of numerals -/

/-- The text of a fraction: nothing, or a point and digits the last of which is not zero. -/
inductive WrittenFraction : List Char → List Char → Prop where
  | none : WrittenFraction [] []
  | digits {digits : List Char}
      (notEmpty : digits ≠ [])
      (allDigits : AllDigits digits)
      (lastNotZero : digits.getLast? ≠ some '0') :
      WrittenFraction digits ('.' :: digits)

/-- One digit that is not zero, a fraction of at most five digits, and an exponent with its sign and at
least two digits, more only if the first of them is not zero. -/
inductive InExponentNotation (exponent : ℤ) : List Char → Prop where
  | intro {first : Char} {digits fraction exponentDigits : List Char}
      (isDigit : first.isDigit = true)
      (firstNotZero : first ≠ '0')
      (written : WrittenFraction digits fraction)
      (short : digits.length ≤ 5)
      (allDigits : AllDigits exponentDigits)
      (atLeastTwo : 2 ≤ exponentDigits.length)
      (noOtherZero : 2 < exponentDigits.length → exponentDigits.head? ≠ some '0')
      (isExponent : Nat.ofDigitChars 10 exponentDigits 0 = exponent.natAbs) :
      InExponentNotation exponent
        (first :: fraction ++ 'e' :: (if exponent < 0 then '-' else '+') :: exponentDigits)

/-- The digits of an integer part, which start with a zero only if there is no other digit, and a
fraction.  From the first digit that is not zero on, there are at most six. -/
inductive InPositionalNotation (integerPart : ℕ) : List Char → Prop where
  | intro {whole digits fraction : List Char}
      (notEmpty : whole ≠ [])
      (allDigits : AllDigits whole)
      (noLeadingZero : whole.head? = some '0' → whole = ['0'])
      (isIntegerPart : Nat.ofDigitChars 10 whole 0 = integerPart)
      (written : WrittenFraction digits fraction)
      (short : ((whole ++ digits).dropWhile (· == '0')).length ≤ 6) :
      InPositionalNotation integerPart (whole ++ fraction)

theorem InExponentNotation.getLast?_ne_point {exponent : ℤ} {text : List Char}
    (form : InExponentNotation exponent text) :
    text.getLast? ≠ some '.' := by
  cases form with
  | @intro first digits fraction exponentDigits _ _ _ _ allDigits atLeastTwo _ _ =>
      have someDigits : exponentDigits ≠ [] := by
        rintro rfl
        simp at atLeastTwo
      rw [List.append_cons, List.append_cons, List.getLast?_append_of_ne_nil _ someDigits]
      exact allDigits.getLast?_ne_point

theorem InPositionalNotation.getLast?_ne_point {integerPart : ℕ} {text : List Char}
    (form : InPositionalNotation integerPart text) :
    text.getLast? ≠ some '.' := by
  cases form with
  | intro _ wholeDigits _ _ written _ =>
      cases written with
      | none =>
          rw [List.append_nil]
          exact wholeDigits.getLast?_ne_point
      | digits notEmpty allDigits _ =>
          rw [List.append_cons, List.getLast?_append_of_ne_nil _ notEmpty]
          exact allDigits.getLast?_ne_point

/-! ## Leading zeros -/

theorem digitChar_ne_zero : ∀ digit < 10, 0 < digit → Nat.digitChar digit ≠ '0' := by
  decide

/-- The digits of a positive number do not start with a zero. -/
theorem head?_toDigits_ne_zero {number : ℕ} (positive : 0 < number) :
    (Nat.toDigits 10 number).head? ≠ some '0' := by
  induction number using Nat.strongRecOn with
  | ind number inductionHypothesis =>
      rw [Nat.toDigits_eq_if (by decide)]
      by_cases small : number < 10
      · rw [if_pos small, List.head?_cons, ne_eq, Option.some_inj]
        exact digitChar_ne_zero number small positive
      · rw [if_neg small, List.head?_append, List.head?_eq_some_head Nat.toDigits_ne_nil,
          Option.some_or, ← List.head?_eq_some_head Nat.toDigits_ne_nil]
        exact inductionHypothesis (number / 10) (by omega) (by omega)

theorem toDigits_eq_zero_of_head? {number : ℕ}
    (startsWithZero : (Nat.toDigits 10 number).head? = some '0') :
    Nat.toDigits 10 number = ['0'] := by
  rcases Nat.eq_zero_or_pos number with rfl | positive
  · rfl
  · exact absurd startsWithZero (head?_toDigits_ne_zero positive)

/-- Padding shows only in a text of the padded width. -/
theorem Decimal.head?_zeroPadded_ne_zero {width number : ℕ}
    (someWidth : 0 < width)
    (longer : width < (zeroPadded width number).length) :
    (zeroPadded width number).head? ≠ some '0' := by
  rw [length_zeroPadded] at longer
  have positive : 0 < number := by
    rcases Nat.eq_zero_or_pos number with rfl | positive
    · rw [Nat.toDigits_zero] at longer
      simp at longer
      omega
    · exact positive
  have noPadding : width - (Nat.toDigits 10 number).length = 0 := by omega
  rw [zeroPadded_eq, noPadding, List.replicate_zero, List.nil_append]
  exact head?_toDigits_ne_zero positive

theorem one_le_of_isDigit {digit : Char}
    (isDigit : digit.isDigit = true)
    (notZero : digit ≠ '0') :
    1 ≤ digit.toNat - '0'.toNat := by
  have lower : '0'.toNat ≤ digit.toNat := by
    simp only [Char.isDigit, Bool.and_eq_true, decide_eq_true_eq] at isDigit
    exact isDigit.1
  have different : digit.toNat ≠ '0'.toNat := fun same => notZero (Char.toNat_inj.mp same)
  omega

/-- Without its leading zeros, a text of digits is as long as the number is large. -/
theorem length_dropWhile_zero_le {text : List Char} {count : ℕ}
    (allDigits : AllDigits text)
    (below : Nat.ofDigitChars 10 text 0 < 10 ^ count) :
    (text.dropWhile (· == '0')).length ≤ count := by
  induction text with
  | nil => exact Nat.zero_le count
  | cons digit rest inductionHypothesis =>
      by_cases isZero : digit = '0'
      · subst isZero
        rw [List.dropWhile_cons_of_pos (by decide)]
        exact inductionHypothesis (allDigits.of_subset (List.subset_cons_self _ _)) below
      · rw [List.dropWhile_cons_of_neg (by simpa using isZero), List.length_cons]
        have first := one_le_of_isDigit (allDigits digit List.mem_cons_self) isZero
        rw [Nat.ofDigitChars_cons, Nat.ofDigitChars_eq_ofDigitChars_zero, Nat.mul_zero,
          Nat.zero_add] at below
        have reaches : 10 ^ rest.length < 10 ^ count := by
          calc
            10 ^ rest.length = 10 ^ rest.length * 1 := (Nat.mul_one _).symm
            _ ≤ 10 ^ rest.length * (digit.toNat - '0'.toNat) := Nat.mul_le_mul_left _ first
            _ < 10 ^ count := by omega
        exact (Nat.pow_lt_pow_iff_right (by decide)).mp reaches

namespace Number

/-! ## Written fractions -/

theorem getLast?_dropTrailingZeros_ne_zero (digits : List Char) :
    (dropTrailingZeros digits).getLast? ≠ some '0' := by
  intro last
  rw [dropTrailingZeros, List.getLast?_reverse] at last
  have stopped := List.head?_dropWhile_not (· == '0') digits.reverse
  rw [last] at stopped
  cases stopped

theorem writtenFraction_fractionText {digits : List Char} (allDigits : AllDigits digits) :
    WrittenFraction (dropTrailingZeros digits) (fractionText digits) := by
  rcases fractionText_cases digits with ⟨nothing, text⟩ | ⟨something, text⟩
  · rw [nothing, text]
    exact .none
  · rw [text]
    exact .digits something (allDigits_dropTrailingZeros allDigits)
      (getLast?_dropTrailingZeros_ne_zero digits)

theorem length_dropTrailingZeros_zeroPadded_le {places number : ℕ}
    (fits : number < Decimal.tenPow places) :
    (dropTrailingZeros (Decimal.zeroPadded places number)).length ≤ places := by
  rcases Nat.eq_zero_or_pos places with rfl | somePlaces
  · have isZero : number = 0 := by
      rw [Decimal.tenPow_zero] at fits
      omega
    subst isZero
    decide
  · obtain ⟨count, split⟩ :=
      exists_eq_dropTrailingZeros_append (Decimal.zeroPadded places number)
    have lengths := congrArg List.length split
    rw [Decimal.length_zeroPadded_of_lt somePlaces fits, List.length_append] at lengths
    omega

/-! ## Both notations -/

/-- The digits of integer part and fraction together, with the point left out, make no more than the
significand. -/
theorem ofDigitChars_positional_le (significand places : ℕ) :
    Nat.ofDigitChars 10
        (Nat.toDigits 10 (significand / Decimal.tenPow places) ++
          dropTrailingZeros
            (Decimal.zeroPadded places (significand % Decimal.tenPow places))) 0 ≤
      significand := by
  have fits : significand % Decimal.tenPow places < Decimal.tenPow places :=
    Nat.mod_lt _ (Decimal.tenPow_pos places)
  have short := length_dropTrailingZeros_zeroPadded_le fits
  have fraction := fractionValue_zeroPadded fits
  rw [← fractionValue_dropTrailingZeros, fractionValue] at fraction
  rw [Nat.ofDigitChars_append, Nat.ofDigitChars_ten_toDigits,
    Nat.ofDigitChars_eq_ofDigitChars_zero]
  generalize dropTrailingZeros
    (Decimal.zeroPadded places (significand % Decimal.tenPow places)) = kept at *
  have division := ten_pow_mul_div_add_mod significand places
  have keptPos : (0 : ℚ) < 10 ^ kept.length := pow_pos (by norm_num) _
  have placesPos : (0 : ℚ) < 10 ^ places := pow_pos (by norm_num) _
  have smaller : (10 : ℚ) ^ kept.length ≤ 10 ^ places := pow_le_pow_right₀ (by norm_num) short
  rw [div_eq_div_iff keptPos.ne' placesPos.ne'] at fraction
  have scaled :
      ((10 : ℚ) ^ kept.length * ↑(significand / Decimal.tenPow places) +
          ↑(Nat.ofDigitChars 10 kept 0)) * 10 ^ places = significand * 10 ^ kept.length := by
    rw [← division, add_mul, fraction]
    ring
  have bound :
      (10 : ℚ) ^ kept.length * ↑(significand / Decimal.tenPow places) +
        ↑(Nat.ofDigitChars 10 kept 0) ≤ significand := by
    apply le_of_mul_le_mul_right _ placesPos
    rw [scaled]
    exact mul_le_mul_of_nonneg_left smaller (Nat.cast_nonneg _)
  exact_mod_cast bound

theorem inPositionalNotation_positional {significand : ℕ}
    (places : ℕ)
    (fits : significand < Decimal.tenPow 6) :
    InPositionalNotation (significand / Decimal.tenPow places) (positional significand places) := by
  have padded := Decimal.allDigits_zeroPadded places (significand % Decimal.tenPow places)
  have wholeDigits := allDigits_toDigits (significand / Decimal.tenPow places)
  refine .intro Nat.toDigits_ne_nil wholeDigits toDigits_eq_zero_of_head?
    Nat.ofDigitChars_ten_toDigits (writtenFraction_fractionText padded) ?_
  apply length_dropWhile_zero_le
  · exact wholeDigits.append (allDigits_dropTrailingZeros padded)
  · exact lt_of_le_of_lt (ofDigitChars_positional_le significand places) fits

theorem inExponentNotation_of_normal {decimal : Decimal.Significant}
    (normal : decimal.Normal 6) :
    InExponentNotation decimal.exponent
      (positional decimal.significand 5 ++ exponentText decimal.exponent) := by
  obtain ⟨lower, upper⟩ := normal
  have fits : decimal.significand % Decimal.tenPow 5 < Decimal.tenPow 5 :=
    Nat.mod_lt _ (Decimal.tenPow_pos 5)
  have firstBelow : decimal.significand / Decimal.tenPow 5 < 10 := Nat.div_lt_of_lt_mul upper
  have firstPos : 0 < decimal.significand / Decimal.tenPow 5 :=
    Nat.div_pos lower (Decimal.tenPow_pos 5)
  have padded := Decimal.allDigits_zeroPadded 5 (decimal.significand % Decimal.tenPow 5)
  have whole := allDigits_toDigits (decimal.significand / Decimal.tenPow 5)
  rw [Nat.toDigits_of_lt_base firstBelow] at whole
  rw [positional, exponentText, Nat.toDigits_of_lt_base firstBelow, List.singleton_append]
  exact .intro (whole _ List.mem_cons_self) (digitChar_ne_zero _ firstBelow firstPos)
    (writtenFraction_fractionText padded) (length_dropTrailingZeros_zeroPadded_le fits)
    (Decimal.allDigits_zeroPadded _ _) (by rw [Decimal.length_zeroPadded]; exact le_max_left _ _)
    (Decimal.head?_zeroPadded_ne_zero (by decide)) (Decimal.ofDigitChars_zeroPadded _ _)

/-! ## The numeral of a number -/

theorem abs_roundSignificant_value (number : Number) :
    |Decimal.roundSignificant 6 number.value| = number.rounded.toRat 6 := by
  have nonneg : 0 ≤ number.rounded.toRat 6 :=
    mul_nonneg (Nat.cast_nonneg _) (zpow_pos (by norm_num) _).le
  rw [value]
  split_ifs
  · rw [Decimal.roundSignificant_neg, abs_neg, ← toRat_rounded, abs_of_nonneg nonneg]
  · rw [← toRat_rounded, abs_of_nonneg nonneg]

theorem log_toRat_rounded (number : Number) :
    Int.log 10 (number.rounded.toRat 6) = number.rounded.exponent := by
  rcases number.rounded_cases with ⟨_, rounded⟩ | ⟨positive, rounded⟩
  · rw [rounded, Decimal.Significant.toRat, Nat.cast_zero, zero_mul, Int.log_zero_right]
  · have normal := Decimal.Significant.normal_ofRat (show 0 < 6 by decide) positive
    rw [rounded, ← abs_of_pos normal.toRat_pos]
    exact normal.log_toRat (by decide)

theorem significand_rounded_lt (number : Number) :
    number.rounded.significand < Decimal.tenPow 6 := by
  rcases number.rounded_cases with ⟨_, rounded⟩ | ⟨positive, rounded⟩
  · rw [rounded]
    exact Decimal.tenPow_pos 6
  · rw [rounded]
    exact (Decimal.Significant.normal_ofRat (by decide) positive).2

/-- Exponent notation is for numbers that are not zero. -/
theorem normal_rounded_of_exponent {number : Number}
    (outside : number.rounded.exponent < -4 ∨ 6 ≤ number.rounded.exponent) :
    number.rounded.Normal 6 := by
  rcases number.rounded_cases with ⟨_, rounded⟩ | ⟨positive, rounded⟩
  · rw [rounded] at outside
    rcases outside with below | above
    · cases below
    · cases above
  · rw [rounded]
    exact Decimal.Significant.normal_ofRat (by decide) positive

theorem floor_toRat {decimal : Decimal.Significant} (below : decimal.exponent < 6) :
    ⌊decimal.toRat 6⌋₊ = decimal.significand / Decimal.tenPow (5 - decimal.exponent).toNat := by
  rw [toRat_eq_div below, ← Decimal.cast_tenPow, Nat.floor_div_eq_div]

theorem mark_mem_magnitudeText_iff (decimal : Decimal.Significant) :
    'e' ∈ magnitudeText decimal ↔ decimal.exponent < -4 ∨ 6 ≤ decimal.exponent := by
  rw [magnitudeText_eq]
  by_cases outside : decimal.exponent < -4 ∨ 6 ≤ decimal.exponent
  · rw [if_pos outside, iff_true_right outside, exponentText]
    exact List.mem_append_right _ List.mem_cons_self
  · rw [if_neg outside, iff_false_right outside]
    exact not_mem_positional _ _ rfl (by decide)

/-- The form of a rounded magnitude is decided by its exponent. -/
theorem form_magnitudeText_rounded (number : Number) :
    if number.rounded.exponent < -4 ∨ 6 ≤ number.rounded.exponent then
      InExponentNotation number.rounded.exponent (magnitudeText number.rounded)
    else
      InPositionalNotation ⌊number.rounded.toRat 6⌋₊ (magnitudeText number.rounded) := by
  rw [magnitudeText_eq]
  by_cases outside : number.rounded.exponent < -4 ∨ 6 ≤ number.rounded.exponent
  · rw [if_pos outside, if_pos outside]
    exact inExponentNotation_of_normal (normal_rounded_of_exponent outside)
  · rw [if_neg outside, if_neg outside, floor_toRat (by omega)]
    exact inPositionalNotation_positional _ number.significand_rounded_lt

theorem getLast?_magnitudeText_ne_point (number : Number) :
    (magnitudeText number.rounded).getLast? ≠ some '.' := by
  have form := number.form_magnitudeText_rounded
  split_ifs at form
  · exact form.getLast?_ne_point
  · exact form.getLast?_ne_point

/-- The text of a finite number has an exponent exactly when the decimal exponent of the rounded number
is below minus four or at least six.  Behind the sign it then is a numeral with that exponent, and
otherwise the integer part of the rounded number, with all its digits, and a fraction; neither form
has zeros that could be left out, or a point at its end.  All of this is true of what formatting
twice gives, which is the same text. -/
theorem text_is_canonical (number : Number) (finite : number.IsFinite) :
    let decimal := Decimal.roundSignificant 6 number.value
    let exponent := Int.log 10 |decimal|
    let text := (Value.number number).text.toList
    text = number.formattedTwice ∧
      ('e' ∈ text ↔ exponent < -4 ∨ 6 ≤ exponent) ∧
      text.getLast? ≠ some '.' ∧
      ∃ body, text = (if number.sign then ['-'] else []) ++ body ∧
        if exponent < -4 ∨ 6 ≤ exponent then
          InExponentNotation exponent body
        else
          InPositionalNotation ⌊|decimal|⌋₊ body := by
  intro decimal exponent text
  have isText : text = number.signText ++ magnitudeText number.rounded :=
    toList_text_of_isFinite finite
  have isDecimal : |decimal| = number.rounded.toRat 6 := number.abs_roundSignificant_value
  have isExponent : exponent = number.rounded.exponent := by
    rw [← log_toRat_rounded, ← isDecimal]
  obtain ⟨digit, rest, starts, _⟩ := exists_magnitudeText_eq_cons number.rounded
  have someText : magnitudeText number.rounded ≠ [] := by
    rw [starts]
    exact List.cons_ne_nil _ _
  refine ⟨toList_text_eq_formattedTwice finite, ?_⟩
  rw [isText, isDecimal, isExponent]
  refine ⟨?_, ?_, magnitudeText number.rounded, rfl, number.form_magnitudeText_rounded⟩
  · rw [List.mem_append, or_iff_right (not_mem_signText (by decide))]
    exact mark_mem_magnitudeText_iff number.rounded
  · rw [List.getLast?_append_of_ne_nil _ someText]
    exact number.getLast?_magnitudeText_ne_point

/-- The negative number next to zero. -/
def leastSubnormal : Number :=
  ofBits 0x8000000000000001#64

theorem leastSubnormal_is_canonical :
    leastSubnormal.IsFinite ∧
      (Value.number leastSubnormal).text.toList = '-' :: "4.94066e-324".toList ∧
      leastSubnormal.formattedTwice = '-' :: "4.94066e-324".toList ∧
      InExponentNotation (-324) "4.94066e-324".toList := by
  have finite : leastSubnormal.IsFinite := by decide
  have isText :
      (Value.number leastSubnormal).text.toList = '-' :: "4.94066e-324".toList := by
    decide +kernel
  have isExponent : leastSubnormal.rounded.exponent = -324 := by decide +kernel
  obtain ⟨twice, _, _, body, split, form⟩ := text_is_canonical leastSubnormal finite
  rw [abs_roundSignificant_value, log_toRat_rounded, isExponent, if_pos (by decide)] at form
  rw [isText] at split
  have isBody : "4.94066e-324".toList = body := List.tail_eq_of_cons_eq split
  exact ⟨finite, isText, twice.symm.trans isText, isBody ▸ form⟩

end Number

end StackMachine
