import Mathlib.Data.List.DropRight
import StackMachine.Proofs.NumeralReading
import StackMachine.Value

/-!
Contract: the numeral of a finite number by formatting it twice.

A formatter that keeps a given number of fraction digits rounds each time it is asked.  Asked for one
digit before the point and five behind it, it settles the exponent; asked again for the places that six
significant digits leave at that exponent, it gives the digits in positional notation.  Zeros at the end
are then trimmed as text.

Owns:
- `fixedText` and `scientificText`, the two forms of such a formatter, each rounding the exact number;
- `trimFraction`, which sees a text and not its digits;
- `formattedTwice`, and that it is the text of every finite number.

## Why rounding twice is harmless

After a carry the second rounding is to a place ten times as large as the first one.  It starts from the
number again and not from the rounded digits, and ends at the same power of ten.

Does not own: reading numerals, or rounding as such.
-/

set_option autoImplicit false

namespace StackMachine.Number

/-! ## A formatter with fixed fraction digits -/

/-- `count` units of the decimal place `places`, every place written. -/
def fixedPoint (count places : ℕ) : List Char :=
  Nat.toDigits 10 (count / Decimal.tenPow places) ++
    if places = 0 then [] else '.' :: Decimal.zeroPadded places (count % Decimal.tenPow places)

/-- A finite number with exactly `places` digits behind the point. -/
def fixedText (number : Number) (places : ℕ) : List Char :=
  number.signText ++ fixedPoint (Decimal.nearestEven (number.magnitude * 10 ^ places)).toNat places

/-- A finite number with one digit before the point and exactly `places` behind it, and an exponent
without padding or plus sign. -/
def scientificText (number : Number) (places : ℕ) : List Char :=
  let decimal : Decimal.Significant :=
    if number.magnitude = 0 then ⟨0, 0⟩ else .ofRat (places + 1) number.magnitude
  number.signText ++ fixedPoint decimal.significand places ++
    'e' :: ((if decimal.exponent < 0 then ['-'] else []) ++ Nat.toDigits 10 decimal.exponent.natAbs)

/-! ## Formatting twice -/

/-- What stands before and behind the first `mark`. -/
def splitOnce (mark : Char) (text : List Char) : Option (List Char × List Char) :=
  match text.dropWhile (· != mark) with
  | [] => none
  | _ :: behind => some (text.takeWhile (· != mark), behind)

/-- A text with a point loses the zeros at its end, and then a point that has come to stand there. -/
def trimFraction (text : List Char) : List Char :=
  if '.' ∈ text then (text.rdropWhile (· == '0')).rdropWhile (· == '.') else text

/-- The exponent is read off the first format, which also supplies the digits of exponent notation; the
digits of positional notation come from a second one. -/
def formattedTwice (number : Number) : List Char :=
  let scientific := number.scientificText 5
  let (mantissa, exponent) :=
    match splitOnce 'e' scientific with
    | some (mantissa, exponentDigits) => (mantissa, (readExponent exponentDigits).getD 0)
    | none => (scientific, 0)
  if exponent < -4 ∨ 6 ≤ exponent then
    trimFraction mantissa ++
      'e' :: (if exponent < 0 then '-' else '+') :: Decimal.zeroPadded 2 exponent.natAbs
  else
    trimFraction (number.fixedText (5 - exponent).toNat)

/-! ## Splitting and trimming texts -/

theorem not_mem_fixedPoint {char : Char} (count places : ℕ)
    (notDigit : char.isDigit = false)
    (notPoint : char ≠ '.') :
    char ∉ fixedPoint count places := by
  have notWhole := (allDigits_toDigits (count / Decimal.tenPow places)).not_mem notDigit
  have notPadded :=
    (Decimal.allDigits_zeroPadded places (count % Decimal.tenPow places)).not_mem notDigit
  rw [fixedPoint, List.mem_append, not_or]
  refine ⟨notWhole, ?_⟩
  split
  · exact List.not_mem_nil
  · rw [List.mem_cons, not_or]
    exact ⟨notPoint, notPadded⟩

theorem splitOnce_append_cons {mark : Char} {before : List Char}
    (behind : List Char)
    (notBefore : mark ∉ before) :
    splitOnce mark (before ++ mark :: behind) = some (before, behind) := by
  have passes : ∀ char ∈ before, (char != mark) = true := by
    intro char member
    rw [bne_iff_ne]
    rintro rfl
    exact notBefore member
  have before_eq : (before ++ mark :: behind).takeWhile (· != mark) = before := by
    rw [List.takeWhile_append_of_pos passes, List.takeWhile_cons_of_neg (by simp), List.append_nil]
  have behind_eq : (before ++ mark :: behind).dropWhile (· != mark) = mark :: behind := by
    rw [List.dropWhile_append_of_pos passes, List.dropWhile_cons_of_neg (by simp)]
  rw [splitOnce, before_eq, behind_eq]

/-- Dropping from the end does not go past a character that is kept. -/
theorem rdropWhile_append_cons {drops : Char → Bool} {stop : Char}
    (before behind : List Char)
    (stays : ¬ drops stop = true) :
    (before ++ stop :: behind).rdropWhile drops = before ++ stop :: behind.rdropWhile drops := by
  induction behind using List.reverseRecOn with
  | nil => exact List.rdropWhile_concat_neg drops before stop stays
  | append_singleton behind last inductionHypothesis =>
      rw [← List.cons_append, ← List.append_assoc, List.rdropWhile_concat, List.rdropWhile_concat,
        inductionHypothesis]
      split
      · rfl
      · rw [List.append_assoc, List.cons_append]

theorem rdropWhile_point {text : List Char} (noPoint : text.getLast? ≠ some '.') :
    text.rdropWhile (· == '.') = text := by
  rw [List.rdropWhile_eq_self_iff]
  intro notEmpty isPoint
  rw [List.getLast?_eq_some_getLast notEmpty, eq_of_beq isPoint] at noPoint
  exact noPoint rfl

/-- What is left behind the point is the written fraction, and without one the point goes as well. -/
theorem trimFraction_append_point {before digits : List Char}
    (noPointBefore : before.getLast? ≠ some '.')
    (allDigits : AllDigits digits) :
    trimFraction (before ++ '.' :: digits) = before ++ fractionText digits := by
  have kept : digits.rdropWhile (· == '0') = dropTrailingZeros digits := rfl
  rw [trimFraction, if_pos (List.mem_append_right _ List.mem_cons_self),
    rdropWhile_append_cons _ _ (by decide), kept]
  rcases fractionText_cases digits with ⟨nothing, text⟩ | ⟨something, text⟩
  · rw [nothing, text, List.append_nil, List.rdropWhile_concat_pos _ _ _ (by decide)]
    exact rdropWhile_point noPointBefore
  · rw [text]
    apply rdropWhile_point
    rw [List.append_cons, List.getLast?_append_of_ne_nil _ something]
    exact (allDigits_dropTrailingZeros allDigits).getLast?_ne_point

/-- Trimming as text leaves the fraction without its last zeros, and an integer as it is. -/
theorem trimFraction_append_fixedPoint {sign : List Char}
    (noPoint : '.' ∉ sign)
    (count places : ℕ) :
    trimFraction (sign ++ fixedPoint count places) = sign ++ positional count places := by
  have whole := allDigits_toDigits (count / Decimal.tenPow places)
  rw [fixedPoint, positional]
  by_cases noPlaces : places = 0
  · have noFraction :
        fractionText (Decimal.zeroPadded places (count % Decimal.tenPow places)) = [] := by
      rw [noPlaces, Decimal.tenPow_zero, Nat.mod_one]
      rfl
    have absent : '.' ∉ sign ++ Nat.toDigits 10 (count / Decimal.tenPow places) := by
      rw [List.mem_append, not_or]
      exact ⟨noPoint, whole.not_mem rfl⟩
    rw [if_pos noPlaces, noFraction, List.append_nil, trimFraction, if_neg absent]
  · rw [if_neg noPlaces, ← List.append_assoc, ← List.append_assoc]
    apply trimFraction_append_point _ (Decimal.allDigits_zeroPadded _ _)
    rw [List.getLast?_append_of_ne_nil _ Nat.toDigits_ne_nil]
    exact whole.getLast?_ne_point

/-! ## Both roundings -/

/-- Rounding to the places that the digits of the rounded number leave gives the same digits. -/
theorem nearestEven_magnitude_mul (number : Number) (below : number.rounded.exponent < 6) :
    Decimal.nearestEven (number.magnitude * 10 ^ (5 - number.rounded.exponent).toNat) =
      number.rounded.significand := by
  rcases number.rounded_cases with ⟨isZero, rounded⟩ | ⟨positive, rounded⟩
  · rw [isZero, zero_mul, Decimal.nearestEven_zero, rounded, Nat.cast_zero]
  · have again := Decimal.Significant.roundTo_ofRat (show 0 < 6 by decide) positive
    rw [← Decimal.Significant.toRat_ofRat (by decide) positive, ← rounded, Decimal.roundTo,
      Decimal.Significant.toRat] at again
    have unitPos : (0 : ℚ) < 10 ^ (number.rounded.exponent + 1 - (6 : ℕ) : ℤ) :=
      zpow_pos (by norm_num) _
    have sameDigits := mul_right_cancel₀ unitPos.ne' again
    have scaled :
        number.magnitude * 10 ^ (5 - number.rounded.exponent).toNat =
          number.magnitude / 10 ^ (number.rounded.exponent + 1 - (6 : ℕ) : ℤ) := by
      rw [div_eq_mul_inv, ← zpow_neg, ← zpow_natCast]
      congr 2
      omega
    rw [scaled]
    exact_mod_cast sameDigits

theorem scientificText_eq (number : Number) :
    number.scientificText 5 =
      (number.signText ++ fixedPoint number.rounded.significand 5) ++
        'e' :: ((if number.rounded.exponent < 0 then ['-'] else []) ++
          Nat.toDigits 10 number.rounded.exponent.natAbs) := by
  have isRounded :
      (if number.magnitude = 0 then ⟨0, 0⟩ else .ofRat 6 number.magnitude) = number.rounded := by
    rcases number.rounded_cases with ⟨isZero, rounded⟩ | ⟨positive, rounded⟩
    · rw [if_pos isZero, rounded]
    · rw [if_neg positive.ne', rounded]
  rw [scientificText, isRounded]

theorem readExponent_of_allDigits {digits : List Char} (allDigits : AllDigits digits) :
    readExponent digits = (readDigits digits).map (↑) := by
  unfold readExponent
  split
  · have isDigit := allDigits '-' List.mem_cons_self
    cases isDigit
  · have isDigit := allDigits '+' List.mem_cons_self
    cases isDigit
  · cases readDigits digits <;> rfl

theorem readExponent_sign_toDigits (exponent : ℤ) :
    readExponent ((if exponent < 0 then ['-'] else []) ++ Nat.toDigits 10 exponent.natAbs) =
      some exponent := by
  have read : readDigits (Nat.toDigits 10 exponent.natAbs) = some exponent.natAbs := by
    rw [readDigits_of_allDigits Nat.toDigits_ne_nil (allDigits_toDigits _),
      Nat.ofDigitChars_ten_toDigits]
  by_cases negative : exponent < 0
  · have sign : -(exponent.natAbs : ℤ) = exponent := by omega
    rw [if_pos negative, List.singleton_append, readExponent, read]
    exact congrArg some sign
  · have sign : (exponent.natAbs : ℤ) = exponent := by omega
    have allDigits := allDigits_toDigits exponent.natAbs
    rw [if_neg negative, List.nil_append, readExponent_of_allDigits allDigits, read]
    exact congrArg some sign

/-- Formatting twice gives the digits of one rounding, in the notation that its exponent asks for. -/
theorem formattedTwice_eq (number : Number) :
    number.formattedTwice = number.signText ++ magnitudeText number.rounded := by
  have noPoint : '.' ∉ number.signText := not_mem_signText (by decide)
  have noMark : 'e' ∉ number.signText ++ fixedPoint number.rounded.significand 5 := by
    rw [List.mem_append, not_or]
    exact ⟨not_mem_signText (by decide), not_mem_fixedPoint _ _ rfl (by decide)⟩
  rw [formattedTwice, scientificText_eq, splitOnce_append_cons _ noMark]
  simp only [readExponent_sign_toDigits, Option.getD_some]
  rw [magnitudeText_eq]
  by_cases outside : number.rounded.exponent < -4 ∨ 6 ≤ number.rounded.exponent
  · rw [if_pos outside, if_pos outside, trimFraction_append_fixedPoint noPoint, List.append_assoc]
    rfl
  · rw [if_neg outside, if_neg outside, fixedText, nearestEven_magnitude_mul number (by omega),
      Int.toNat_natCast, trimFraction_append_fixedPoint noPoint]

theorem toList_text_eq_formattedTwice {number : Number} (finite : number.IsFinite) :
    number.text.toList = number.formattedTwice := by
  rw [toList_text_of_isFinite finite, formattedTwice_eq]

/-- The text of a finite number stands for the number rounded to six significant digits, and a minus
sign shows the sign bit, that of a zero included.  It is what formatting twice gives, so the second
rounding never changes a digit and trimming never takes one that counts. -/
theorem text_stands_for_rounded (number : Number) (finite : number.IsFinite) :
    let text := (Value.number number).text.toList
    readNumeral text = some (Decimal.roundSignificant 6 number.value) ∧
      (text.head? = some '-' ↔ number.sign = true) ∧
      text = number.formattedTwice := by
  intro text
  exact ⟨readNumeral_text finite, head?_text_of_isFinite finite,
    toList_text_eq_formattedTwice finite⟩

/-- Minus 999999.5, half way between two decimals of six digits.  The even one of them is reached by a
carry through all digits. -/
def carriedTie : Number :=
  ofBits 0xc12e847f00000000#64

theorem carriedTie_stands_for_million :
    carriedTie.IsFinite ∧ carriedTie.value = -1999999 / 2 ∧
      Decimal.roundSignificant 6 carriedTie.value = -10 ^ 6 ∧
      (Value.number carriedTie).text = "-1e+06" ∧
      carriedTie.formattedTwice = "-1e+06".toList := by
  have finite : carriedTie.IsFinite := by decide
  have isValue : carriedTie.value = -1999999 / 2 := by decide +kernel
  have isText : (Value.number carriedTie).text = "-1e+06" := by decide +kernel
  have million : readNumeral "-1e+06".toList = some (-10 ^ 6) := by decide +kernel
  obtain ⟨read, _, twice⟩ := text_stands_for_rounded carriedTie finite
  rw [isText, million] at read
  rw [isText] at twice
  exact ⟨finite, isValue, (Option.some.inj read).symm, isText, twice.symm⟩

end StackMachine.Number
