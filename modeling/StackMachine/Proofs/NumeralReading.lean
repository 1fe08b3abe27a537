import StackMachine.Number.Numeral
import StackMachine.Proofs.Rounding

/-!
Contract: the numeral of a finite number, read back as a decimal.

A binary number is a rational number, and its numeral is read as one.  The two differ by the rounding
to six significant digits and by nothing else, in either notation and for zeros and subnormal numbers
as well.

Owns:
- `value`, the rational number that the fields of a finite number stand for;
- `readNumeral`, the number that a decimal numeral stands for;
- the reading of padded digits, of trimmed fractions and of both notations.

Does not own: which of all numerals for a decimal is written.
-/

set_option autoImplicit false

namespace StackMachine

namespace Number

/-! ## The number that bits stand for -/

/-- Neither an infinity nor what is no number. -/
def IsFinite (number : Number) : Prop :=
  number.exponent ≠ BitVec.allOnes 11

instance (number : Number) : Decidable number.IsFinite :=
  inferInstanceAs (Decidable (_ ≠ _))

/-- The magnitude of a finite number.  The fraction counts in units of `2 ^ (-52)`, after a leading one
that is left out when the exponent field is zero. -/
def magnitude (number : Number) : ℚ :=
  if number.exponent = 0 then
    number.fraction.toNat / 2 ^ 52 * 2 ^ (-1022 : ℤ)
  else
    (1 + number.fraction.toNat / 2 ^ 52) * 2 ^ (number.exponent.toNat - 1023 : ℤ)

/-- The rational number that a finite number is. -/
def value (number : Number) : ℚ :=
  if number.sign then -number.magnitude else number.magnitude

theorem significand_eq (number : Number) :
    number.significand =
      (if number.exponent = 0 then 0 else 2 ^ 52) + number.fraction.toNat := by
  have fractionLt := number.fraction.isLt
  rw [significand, BitVec.toNat_append, ← Nat.shiftLeft_add_eq_or_of_lt fractionLt,
    Nat.shiftLeft_eq]
  by_cases subnormal : number.exponent = 0
  · have noLeadingBit : (number.exponent != 0) = false := bne_eq_false_iff_eq.mpr subnormal
    rw [noLeadingBit, if_pos subnormal]
    rfl
  · have leadingBit : (number.exponent != 0) = true := bne_iff_ne.mpr subnormal
    rw [leadingBit, if_neg subnormal]
    rfl

theorem magnitude_eq_units_div (number : Number) :
    number.magnitude = number.units / 2 ^ unitPlaces := by
  have unitPos : (0 : ℚ) < 2 ^ unitPlaces := pow_pos (by norm_num) _
  rw [units, Nat.shiftLeft_eq, significand_eq, shift, magnitude, eq_div_iff unitPos.ne']
  by_cases subnormal : number.exponent = 0
  · have exponents : (-1022 : ℤ) + unitPlaces = (52 : ℕ) := rfl
    have scaled : (2 : ℚ) ^ (-1022 : ℤ) * 2 ^ unitPlaces = 2 ^ 52 := by
      rw [← zpow_natCast 2 unitPlaces, ← zpow_add₀ (by norm_num), exponents, zpow_natCast]
    have noShift : number.exponent.toNat - 1 = 0 := by
      rw [subnormal]
      rfl
    rw [if_pos subnormal, if_pos subnormal, noShift, mul_assoc, scaled]
    push_cast
    field_simp
    ring
  · have notZero : number.exponent.toNat ≠ 0 := by
      intro isZero
      exact subnormal (BitVec.eq_of_toNat_eq isZero)
    have places : (unitPlaces : ℤ) = 1074 := rfl
    have exponents :
        (number.exponent.toNat - 1023 : ℤ) + unitPlaces =
          (52 : ℕ) + (number.exponent.toNat - 1 : ℕ) := by
      omega
    have scaled :
        (2 : ℚ) ^ (number.exponent.toNat - 1023 : ℤ) * 2 ^ unitPlaces =
          2 ^ 52 * 2 ^ (number.exponent.toNat - 1) := by
      rw [← zpow_natCast 2 unitPlaces, ← zpow_add₀ (by norm_num), exponents,
        zpow_add₀ (by norm_num), zpow_natCast, zpow_natCast]
    rw [if_neg subnormal, if_neg subnormal, mul_assoc, scaled, Nat.cast_mul, Nat.cast_add,
      Nat.cast_pow, Nat.cast_pow, Nat.cast_ofNat]
    field_simp

theorem magnitude_eq_exactDigits_div (number : Number) :
    number.magnitude = number.exactDigits / 10 ^ number.exactPlaces := by
  have exact := number.exactDigits_shiftLeft
  rw [Nat.shiftLeft_eq] at exact
  have exactRat :
      (number.exactDigits : ℚ) * 2 ^ unitPlaces = number.units * 10 ^ number.exactPlaces := by
    rw [← Decimal.cast_tenPow]
    exact_mod_cast exact
  have binaryPos : (0 : ℚ) < 2 ^ unitPlaces := pow_pos (by norm_num) _
  have decimalPos : (0 : ℚ) < 10 ^ number.exactPlaces := pow_pos (by norm_num) _
  rw [magnitude_eq_units_div, div_eq_div_iff binaryPos.ne' decimalPos.ne']
  exact exactRat.symm

theorem rounded_cases (number : Number) :
    number.magnitude = 0 ∧ number.rounded = ⟨0, 0⟩ ∨
      0 < number.magnitude ∧ number.rounded = .ofRat 6 number.magnitude := by
  have exact := number.magnitude_eq_exactDigits_div
  rw [rounded]
  rcases Nat.eq_zero_or_pos number.exactDigits with isZero | positive
  · rw [exact, isZero, Decimal.Significant.round_zero, Nat.cast_zero, zero_div]
    exact .inl ⟨rfl, rfl⟩
  · rw [Decimal.Significant.round_eq_ofRat _ _ positive, exact]
    exact .inr ⟨div_pos (by exact_mod_cast positive) (pow_pos (by norm_num) _), rfl⟩

theorem toRat_rounded (number : Number) :
    number.rounded.toRat 6 = Decimal.roundSignificant 6 number.magnitude := by
  rcases number.rounded_cases with ⟨isZero, rounded⟩ | ⟨positive, rounded⟩
  · rw [rounded, isZero, Decimal.roundSignificant_zero, Decimal.Significant.toRat, Nat.cast_zero,
      zero_mul]
  · rw [rounded]
    exact Decimal.Significant.toRat_ofRat (by decide) positive

end Number

/-! ## Reading numerals -/

/-- Every character is a decimal digit. -/
def AllDigits (text : List Char) : Prop :=
  ∀ char ∈ text, char.isDigit = true

instance (text : List Char) : Decidable (AllDigits text) :=
  decidable_of_iff (text.all Char.isDigit = true) List.all_eq_true

/-- The natural number that one or more digits write. -/
def readDigits (text : List Char) : Option ℕ :=
  if text ≠ [] ∧ AllDigits text then some (Nat.ofDigitChars 10 text 0) else none

/-- The number that digits write, with a point and further digits behind them or without. -/
def readPositional (text : List Char) : Option ℚ :=
  match text.splitOn '.' with
  | [whole] => do
      let units ← readDigits whole
      return units
  | [whole, fraction] => do
      let units ← readDigits whole
      let parts ← readDigits fraction
      return units + parts / 10 ^ fraction.length
  | _ => none

/-- The integer that digits write, with a sign before them or without. -/
def readExponent : List Char → Option ℤ
  | '-' :: digits => do
      let exponent ← readDigits digits
      return -exponent
  | '+' :: digits => do
      let exponent ← readDigits digits
      return exponent
  | digits => do
      let exponent ← readDigits digits
      return exponent

/-- The number that a numeral without sign writes; an exponent may follow the mark `e`. -/
def readMagnitude (text : List Char) : Option ℚ :=
  match text.splitOn 'e' with
  | [mantissa] => readPositional mantissa
  | [mantissa, exponentDigits] => do
      let factor ← readPositional mantissa
      let exponent ← readExponent exponentDigits
      return factor * 10 ^ exponent
  | _ => none

/-- The number that a decimal numeral writes. -/
def readNumeral : List Char → Option ℚ
  | '-' :: text => do
      let magnitude ← readMagnitude text
      return -magnitude
  | text => readMagnitude text

/-! ## Digits -/

theorem AllDigits.append {left right : List Char}
    (leftDigits : AllDigits left)
    (rightDigits : AllDigits right) :
    AllDigits (left ++ right) := by
  intro char member
  rcases List.mem_append.mp member with inLeft | inRight
  · exact leftDigits char inLeft
  · exact rightDigits char inRight

theorem AllDigits.of_subset {text whole : List Char}
    (allDigits : AllDigits whole)
    (subset : text ⊆ whole) :
    AllDigits text :=
  fun char member => allDigits char (subset member)

theorem AllDigits.not_mem {text : List Char} {char : Char}
    (allDigits : AllDigits text)
    (notDigit : char.isDigit = false) :
    char ∉ text := by
  intro member
  rw [allDigits char member] at notDigit
  cases notDigit

theorem AllDigits.getLast?_ne_point {digits : List Char} (allDigits : AllDigits digits) :
    digits.getLast? ≠ some '.' := by
  intro last
  have isDigit := allDigits _ (List.mem_of_getLast? last)
  cases isDigit

theorem allDigits_toDigits (number : ℕ) : AllDigits (Nat.toDigits 10 number) :=
  fun _ member => Nat.isDigit_of_mem_toDigits (by decide) (by decide) member

theorem readDigits_of_allDigits {text : List Char}
    (notEmpty : text ≠ [])
    (allDigits : AllDigits text) :
    readDigits text = some (Nat.ofDigitChars 10 text 0) :=
  if_pos ⟨notEmpty, allDigits⟩

namespace Decimal

theorem zeroPadded_eq (width number : ℕ) :
    zeroPadded width number =
      List.replicate (width - (Nat.toDigits 10 number).length) '0' ++ Nat.toDigits 10 number :=
  rfl

theorem allDigits_zeroPadded (width number : ℕ) : AllDigits (zeroPadded width number) := by
  rw [zeroPadded_eq]
  apply AllDigits.append _ (allDigits_toDigits number)
  intro char member
  rw [List.eq_of_mem_replicate member]
  decide

theorem zeroPadded_ne_nil (width number : ℕ) : zeroPadded width number ≠ [] := by
  rw [zeroPadded_eq]
  exact List.append_ne_nil_of_right_ne_nil _ Nat.toDigits_ne_nil

/-- Padding does not change the number. -/
theorem ofDigitChars_zeroPadded (width number : ℕ) :
    Nat.ofDigitChars 10 (zeroPadded width number) 0 = number := by
  rw [zeroPadded_eq, Nat.ofDigitChars_append, Nat.ofDigitChars_replicate_zero, Nat.mul_zero,
    Nat.ofDigitChars_ten_toDigits]

theorem length_zeroPadded_of_lt {width number : ℕ}
    (someWidth : 0 < width)
    (fits : number < tenPow width) :
    (zeroPadded width number).length = width := by
  rw [length_zeroPadded]
  exact max_eq_left ((Nat.length_toDigits_le_iff (by decide) someWidth).mpr fits)

end Decimal

namespace Number

/-! ## Fractions -/

/-- The number that digits behind a point add. -/
def fractionValue (digits : List Char) : ℚ :=
  Nat.ofDigitChars 10 digits 0 / 10 ^ digits.length

theorem fractionValue_append_zeros (digits : List Char) (count : ℕ) :
    fractionValue (digits ++ List.replicate count '0') = fractionValue digits := by
  have zerosPos : (0 : ℚ) < 10 ^ count := pow_pos (by norm_num) _
  have digitsPos : (0 : ℚ) < 10 ^ digits.length := pow_pos (by norm_num) _
  rw [fractionValue, Nat.ofDigitChars_append, Nat.ofDigitChars_replicate_zero, List.length_append,
    List.length_replicate, fractionValue, pow_add]
  push_cast
  field_simp

/-- What is dropped are zeros at the end. -/
theorem exists_eq_dropTrailingZeros_append (digits : List Char) :
    ∃ count, digits = dropTrailingZeros digits ++ List.replicate count '0' := by
  let zeros := (digits.reverse.takeWhile (· == '0')).reverse
  have split : digits = dropTrailingZeros digits ++ zeros := by
    rw [dropTrailingZeros, ← List.reverse_append, List.takeWhile_append_dropWhile,
      List.reverse_reverse]
  have allZero : zeros = List.replicate zeros.length '0' := by
    apply List.eq_replicate_of_mem
    intro char member
    have passed := List.all_eq_true.mp List.all_takeWhile char (List.mem_reverse.mp member)
    exact eq_of_beq passed
  exact ⟨zeros.length, by rw [← allZero]; exact split⟩

theorem allDigits_dropTrailingZeros {digits : List Char} (allDigits : AllDigits digits) :
    AllDigits (dropTrailingZeros digits) := by
  obtain ⟨count, split⟩ := exists_eq_dropTrailingZeros_append digits
  rw [split] at allDigits
  exact allDigits.of_subset (List.subset_append_left _ _)

theorem fractionValue_dropTrailingZeros (digits : List Char) :
    fractionValue (dropTrailingZeros digits) = fractionValue digits := by
  obtain ⟨count, split⟩ := exists_eq_dropTrailingZeros_append digits
  conv_rhs => rw [split, fractionValue_append_zeros]

theorem fractionText_cases (digits : List Char) :
    dropTrailingZeros digits = [] ∧ fractionText digits = [] ∨
      dropTrailingZeros digits ≠ [] ∧ fractionText digits = '.' :: dropTrailingZeros digits := by
  unfold fractionText
  split
  · rename_i none
    exact .inl ⟨none, rfl⟩
  · rename_i some
    exact .inr ⟨some, rfl⟩

theorem fractionValue_zeroPadded {places number : ℕ} (fits : number < Decimal.tenPow places) :
    fractionValue (Decimal.zeroPadded places number) = number / 10 ^ places := by
  rw [fractionValue, Decimal.ofDigitChars_zeroPadded]
  rcases Nat.eq_zero_or_pos places with noPlaces | somePlaces
  · have isZero : number = 0 := by
      rw [noPlaces, Decimal.tenPow_zero] at fits
      omega
    rw [isZero]
    simp
  · rw [Decimal.length_zeroPadded_of_lt somePlaces fits]

/-! ## Both notations -/

theorem readPositional_append_fractionText {whole digits : List Char}
    (notEmpty : whole ≠ [])
    (wholeDigits : AllDigits whole)
    (fractionDigits : AllDigits digits) :
    readPositional (whole ++ fractionText digits) =
      some (Nat.ofDigitChars 10 whole 0 + fractionValue digits) := by
  have noPoint : '.' ∉ whole := wholeDigits.not_mem rfl
  have keptDigits := allDigits_dropTrailingZeros fractionDigits
  rw [← fractionValue_dropTrailingZeros]
  rcases fractionText_cases digits with ⟨nothing, text⟩ | ⟨something, text⟩
  · rw [text, nothing, List.append_nil, readPositional, List.splitOn_eq_singleton noPoint]
    simp [readDigits_of_allDigits notEmpty wholeDigits, fractionValue]
  · have onePoint : '.' ∉ dropTrailingZeros digits := keptDigits.not_mem rfl
    rw [text, readPositional, List.splitOn_append_cons_self_of_not_mem noPoint,
      List.splitOn_eq_singleton onePoint]
    simp [readDigits_of_allDigits notEmpty wholeDigits, readDigits_of_allDigits something keptDigits,
      fractionValue]

theorem ten_pow_mul_div_add_mod (significand places : ℕ) :
    (10 : ℚ) ^ places * ↑(significand / Decimal.tenPow places) +
      ↑(significand % Decimal.tenPow places) = significand := by
  rw [← Decimal.cast_tenPow]
  exact_mod_cast Nat.div_add_mod significand (Decimal.tenPow places)

theorem readPositional_positional (significand places : ℕ) :
    readPositional (positional significand places) = some (significand / 10 ^ places : ℚ) := by
  have fits : significand % Decimal.tenPow places < Decimal.tenPow places :=
    Nat.mod_lt _ (Decimal.tenPow_pos places)
  have unitPos : (0 : ℚ) < 10 ^ places := pow_pos (by norm_num) _
  rw [positional, readPositional_append_fractionText Nat.toDigits_ne_nil (allDigits_toDigits _)
    (Decimal.allDigits_zeroPadded _ _), fractionValue_zeroPadded fits,
    Nat.ofDigitChars_ten_toDigits, ← ten_pow_mul_div_add_mod significand places]
  congr 1
  field_simp

theorem readExponent_sign_zeroPadded (exponent : ℤ) :
    readExponent ((if exponent < 0 then '-' else '+') ::
      Decimal.zeroPadded exponentWidth exponent.natAbs) = some exponent := by
  have read : readDigits (Decimal.zeroPadded exponentWidth exponent.natAbs) =
      some exponent.natAbs := by
    rw [readDigits_of_allDigits (Decimal.zeroPadded_ne_nil _ _) (Decimal.allDigits_zeroPadded _ _),
      Decimal.ofDigitChars_zeroPadded]
  by_cases negative : exponent < 0
  · rw [if_pos negative, readExponent, read]
    have sign : -(exponent.natAbs : ℤ) = exponent := by omega
    exact congrArg some sign
  · rw [if_neg negative, readExponent, read]
    have sign : (exponent.natAbs : ℤ) = exponent := by omega
    exact congrArg some sign

theorem not_mem_positional {char : Char} (significand places : ℕ)
    (notDigit : char.isDigit = false)
    (notPoint : char ≠ '.') :
    char ∉ positional significand places := by
  have padded := Decimal.allDigits_zeroPadded places (significand % Decimal.tenPow places)
  have notKept := (allDigits_dropTrailingZeros padded).not_mem notDigit
  rw [positional, List.mem_append]
  rintro (inWhole | inFraction)
  · exact (allDigits_toDigits _).not_mem notDigit inWhole
  · rcases fractionText_cases
      (Decimal.zeroPadded places (significand % Decimal.tenPow places)) with
      ⟨_, text⟩ | ⟨_, text⟩
    · rw [text] at inFraction
      cases inFraction
    · rw [text] at inFraction
      rcases List.mem_cons.mp inFraction with isPoint | inKept
      · exact notPoint isPoint
      · exact notKept inKept

theorem magnitudeText_eq (decimal : Decimal.Significant) :
    magnitudeText decimal =
      if decimal.exponent < -4 ∨ 6 ≤ decimal.exponent then
        positional decimal.significand 5 ++ exponentText decimal.exponent
      else
        positional decimal.significand (5 - decimal.exponent).toNat := by
  have leastExponent : leastPositionalExponent = -4 := rfl
  have isSix : (precision : ℤ) = 6 := rfl
  unfold magnitudeText
  by_cases outside : decimal.exponent < -4 ∨ 6 ≤ decimal.exponent
  · rw [if_neg (by omega), if_pos outside]
    rfl
  · rw [if_pos (by omega), if_neg outside]
    rfl

/-- With an exponent below six, a decimal of six digits has its last digit at or behind the point. -/
theorem toRat_eq_div {decimal : Decimal.Significant} (below : decimal.exponent < 6) :
    decimal.toRat 6 = decimal.significand / 10 ^ (5 - decimal.exponent).toNat := by
  rw [Decimal.Significant.toRat, div_eq_mul_inv, ← zpow_natCast, ← zpow_neg]
  congr 2
  omega

/-- Both notations of a decimal stand for it. -/
theorem readMagnitude_magnitudeText (decimal : Decimal.Significant) :
    readMagnitude (magnitudeText decimal) = some (decimal.toRat 6) := by
  have noMark (places : ℕ) : 'e' ∉ positional decimal.significand places :=
    not_mem_positional _ _ rfl (by decide)
  unfold magnitudeText
  split_ifs with inRange
  · rw [readMagnitude, List.splitOn_eq_singleton (noMark _), toRat_eq_div inRange.2]
    exact readPositional_positional _ _
  · have noSecondMark :
        'e' ∉ (if decimal.exponent < 0 then '-' else '+') ::
          Decimal.zeroPadded exponentWidth decimal.exponent.natAbs := by
      rw [List.mem_cons, not_or]
      refine ⟨?_, (Decimal.allDigits_zeroPadded _ _).not_mem rfl⟩
      split <;> decide
    have scaled :
        (decimal.significand : ℚ) / 10 ^ 5 * 10 ^ decimal.exponent = decimal.toRat 6 := by
      rw [Decimal.Significant.toRat, div_eq_mul_inv, ← zpow_natCast, ← zpow_neg, mul_assoc,
        ← zpow_add₀ (by norm_num)]
      congr 2
      omega
    rw [readMagnitude, exponentText, List.splitOn_append_cons_self_of_not_mem (noMark _),
      List.splitOn_eq_singleton noSecondMark]
    simp only [readPositional_positional, readExponent_sign_zeroPadded]
    exact congrArg some scaled

theorem exists_positional_eq_cons (significand places : ℕ) :
    ∃ digit rest, positional significand places = digit :: rest ∧ digit.isDigit = true := by
  have allDigits := allDigits_toDigits (significand / Decimal.tenPow places)
  rw [positional]
  cases whole : Nat.toDigits 10 (significand / Decimal.tenPow places) with
  | nil => exact absurd whole Nat.toDigits_ne_nil
  | cons digit rest =>
      rw [whole] at allDigits
      exact ⟨digit, _, List.cons_append, allDigits digit List.mem_cons_self⟩

/-- In either notation the first character is a digit. -/
theorem exists_magnitudeText_eq_cons (decimal : Decimal.Significant) :
    ∃ digit rest, magnitudeText decimal = digit :: rest ∧ digit.isDigit = true := by
  unfold magnitudeText
  split_ifs
  · exact exists_positional_eq_cons _ _
  · obtain ⟨digit, rest, text, isDigit⟩ :=
      exists_positional_eq_cons decimal.significand (precision - 1)
    rw [text]
    exact ⟨digit, _, List.cons_append, isDigit⟩

/-! ## The numeral of a number -/

theorem not_mem_signText {number : Number} {char : Char} (notSign : char ≠ '-') :
    char ∉ number.signText := by
  unfold signText
  split
  · rwa [List.mem_singleton]
  · exact List.not_mem_nil

theorem toList_text_of_isFinite {number : Number} (finite : number.IsFinite) :
    number.text.toList = number.signText ++ magnitudeText number.rounded := by
  have notOnes : (number.exponent == BitVec.allOnes 11) = false := beq_eq_false_iff_ne.mpr finite
  have notNaN : ¬ number.isNaN = true := by
    rw [isNaN, notOnes, Bool.false_and]
    decide
  have notInfinite : ¬ number.isInfinite = true := by
    rw [isInfinite, notOnes, Bool.false_and]
    decide
  rw [text, if_neg notNaN, if_neg notInfinite, String.toList_ofList]

theorem head?_text_of_isFinite {number : Number} (finite : number.IsFinite) :
    number.text.toList.head? = some '-' ↔ number.sign = true := by
  obtain ⟨digit, rest, magnitude, isDigit⟩ := exists_magnitudeText_eq_cons number.rounded
  rw [toList_text_of_isFinite finite, magnitude, signText]
  by_cases negative : number.sign = true
  · simp [negative]
  · have notSign : digit ≠ '-' := by
      rintro rfl
      cases isDigit
    simp [negative, notSign]

theorem readNumeral_of_digit {digit : Char} {rest : List Char} (isDigit : digit.isDigit = true) :
    readNumeral (digit :: rest) = readMagnitude (digit :: rest) := by
  unfold readNumeral
  split
  · rename_i starts
    cases starts
    cases isDigit
  · rfl

/-- The numeral of a finite number stands for the number rounded to six significant digits. -/
theorem readNumeral_text {number : Number} (finite : number.IsFinite) :
    readNumeral number.text.toList = some (Decimal.roundSignificant 6 number.value) := by
  have read := readMagnitude_magnitudeText number.rounded
  rw [toRat_rounded] at read
  rw [toList_text_of_isFinite finite, signText, value]
  by_cases negative : number.sign = true
  · rw [if_pos negative, if_pos negative, Decimal.roundSignificant_neg, List.singleton_append,
      readNumeral, read]
    rfl
  · obtain ⟨digit, rest, magnitude, isDigit⟩ := exists_magnitudeText_eq_cons number.rounded
    rw [if_neg negative, if_neg negative, List.nil_append, ← read, magnitude]
    exact readNumeral_of_digit isDigit

end Number

end StackMachine
