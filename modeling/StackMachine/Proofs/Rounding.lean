import Mathlib.Data.Int.Log
import Mathlib.Data.Rat.Floor
import Mathlib.Tactic.FieldSimp
import Mathlib.Tactic.Linarith
import Mathlib.Tactic.Ring
import StackMachine.Decimal.Rounding

/-!
Contract: rounding of rational numbers to significant decimal digits.

The digits of a decimal are found by division of natural numbers.  Here the same rounding is stated
on the rational numbers that these stand for, where it does not mention digits at all.

Owns:
- `nearestEven`, the nearest integer with ties to the even one, and what determines it;
- `roundTo` and `roundSignificant`, rounding to a unit and to a number of significant digits;
- that `Significant.round` is the latter, with the exponent of its result;
- that rounding at the place which a carry leads to gives the same decimal.

Does not own: how a decimal is written.
-/

set_option autoImplicit false

namespace StackMachine.Decimal

/-! ## Nearest integers -/

/-- `integer` is nearest to `exact`, and even if it is half a unit away. -/
structure IsNearestEven (exact : ℚ) (integer : ℤ) : Prop where
  near : |exact - integer| ≤ 1 / 2
  tie : |exact - integer| = 1 / 2 → Even integer

/-- The integer nearest to `exact`; of two nearest ones, the even one. -/
def nearestEven (exact : ℚ) : ℤ :=
  if Int.fract exact < 1 / 2 then
    ⌊exact⌋
  else if 1 / 2 < Int.fract exact then
    ⌊exact⌋ + 1
  else
    ⌊exact⌋ + ⌊exact⌋ % 2

theorem IsNearestEven.le
    {exact : ℚ} {left right : ℤ}
    (isLeft : IsNearestEven exact left)
    (isRight : IsNearestEven exact right) :
    left ≤ right := by
  by_contra above
  have leftGap : (right : ℚ) + 1 ≤ left := by
    exact_mod_cast Int.not_le.mp above
  have leftNear := (abs_le.mp isLeft.near).1
  have rightNear := (abs_le.mp isRight.near).2
  -- Two integers are both within half a unit only if `exact` is half way between them.
  have halfWay : exact = right + 1 / 2 := by
    linarith
  have next : (left : ℚ) = right + 1 := by
    linarith
  have leftEven : Even left := by
    apply isLeft.tie
    rw [halfWay, next, abs_of_neg (by linarith)]
    ring
  have rightEven : Even right := by
    apply isRight.tie
    rw [halfWay, abs_of_pos (by linarith)]
    ring
  have isNext : left = right + 1 := by
    exact_mod_cast next
  rw [isNext] at leftEven
  exact Int.even_add_one.mp leftEven rightEven

theorem isNearestEven_nearestEven (exact : ℚ) : IsNearestEven exact (nearestEven exact) := by
  have split := Int.floor_add_fract exact
  have fractNonneg := Int.fract_nonneg exact
  have fractLt := Int.fract_lt_one exact
  unfold nearestEven
  split_ifs with below above
  · have gap : exact - ⌊exact⌋ = Int.fract exact := by linarith
    rw [← abs_of_nonneg fractNonneg, ← gap] at below
    exact ⟨below.le, fun tie => absurd tie below.ne⟩
  · have gap : exact - ((⌊exact⌋ + 1 : ℤ) : ℚ) = Int.fract exact - 1 := by
      push_cast
      linarith
    have near : |exact - ((⌊exact⌋ + 1 : ℤ) : ℚ)| < 1 / 2 := by
      rw [gap, abs_lt]
      constructor <;> linarith
    exact ⟨near.le, fun tie => absurd tie near.ne⟩
  · have half : Int.fract exact = 1 / 2 := by linarith
    have even : Even (⌊exact⌋ + ⌊exact⌋ % 2) := by
      rw [Int.even_iff]
      omega
    refine ⟨?_, fun _ => even⟩
    rcases Int.emod_two_eq_zero_or_one ⌊exact⌋ with isEven | isOdd
    · rw [isEven, add_zero, abs_le]
      constructor <;> linarith
    · rw [isOdd, abs_le]
      push_cast
      constructor <;> linarith

/-- The nearest integer is determined by its distance and, at a tie, by being even. -/
theorem nearestEven_eq_iff {exact : ℚ} {integer : ℤ} :
    nearestEven exact = integer ↔ IsNearestEven exact integer := by
  have rounded := isNearestEven_nearestEven exact
  constructor
  · rintro rfl
    exact rounded
  · intro isNearest
    exact le_antisymm (rounded.le isNearest) (isNearest.le rounded)

@[simp] theorem nearestEven_zero : nearestEven 0 = 0 := by
  rw [nearestEven_eq_iff]
  exact ⟨by norm_num, fun _ => Even.zero⟩

@[simp] theorem nearestEven_neg (exact : ℚ) : nearestEven (-exact) = -nearestEven exact := by
  have rounded := isNearestEven_nearestEven exact
  have gap : |-exact - ((-nearestEven exact : ℤ) : ℚ)| = |exact - nearestEven exact| := by
    rw [← abs_neg]
    push_cast
    ring_nf
  rw [nearestEven_eq_iff]
  refine ⟨gap.trans_le rounded.near, ?_⟩
  intro tie
  exact (rounded.tie (gap.symm.trans tie)).neg

/-- Rounding does not pass over an integer. -/
theorem le_nearestEven {bound : ℤ} {exact : ℚ} (below : (bound : ℚ) ≤ exact) :
    bound ≤ nearestEven exact := by
  have near := (abs_le.mp (isNearestEven_nearestEven exact).near).2
  have closer : (bound : ℚ) - 1 < nearestEven exact := by
    linarith
  have closerInt : bound - 1 < nearestEven exact := by
    exact_mod_cast closer
  omega

theorem nearestEven_le {bound : ℤ} {exact : ℚ} (above : exact ≤ bound) :
    nearestEven exact ≤ bound := by
  have near := (abs_le.mp (isNearestEven_nearestEven exact).near).1
  have closer : (nearestEven exact : ℚ) < bound + 1 := by
    linarith
  have closerInt : nearestEven exact < bound + 1 := by
    exact_mod_cast closer
  omega

theorem two_mul_mod_eq_of_odd
    {numerator denominator : ℕ}
    (positive : 0 < denominator)
    {odd : ℤ}
    (isOdd : Odd odd)
    (half : 2 * (numerator : ℤ) = odd * denominator) :
    2 * (numerator % denominator) = denominator := by
  have division : (denominator : ℤ) * ↑(numerator / denominator) + ↑(numerator % denominator) =
      numerator := by
    exact_mod_cast Nat.div_add_mod numerator denominator
  have remainderLt : (↑(numerator % denominator) : ℤ) < denominator := by
    exact_mod_cast Nat.mod_lt numerator positive
  have remainderNonneg : (0 : ℤ) ≤ ↑(numerator % denominator) := Int.natCast_nonneg _
  have denominatorPos : (0 : ℤ) < denominator := by
    exact_mod_cast positive
  generalize (↑(numerator / denominator) : ℤ) = quotient at division
  generalize numerator % denominator = remainder at *
  have twice : 2 * (remainder : ℤ) = (odd - 2 * quotient) * denominator := by
    rw [Int.sub_mul, ← half, ← division]
    ring
  have nonneg : 0 ≤ odd - 2 * quotient := by
    by_contra negative
    nlinarith
  have ltTwo : odd - 2 * quotient < 2 := by
    by_contra large
    nlinarith
  have isOne : odd - 2 * quotient = 1 := by
    rw [Int.odd_iff] at isOdd
    omega
  rw [isOne, Int.one_mul] at twice
  exact_mod_cast twice

/-- Division of naturals to the nearest integer is the rounding of their quotient. -/
theorem nearestEven_div
    (numerator : ℕ)
    {denominator : ℕ}
    (positive : 0 < denominator) :
    nearestEven (numerator / denominator) = roundHalfEven numerator denominator := by
  have denominatorPos : (0 : ℚ) < denominator := by
    exact_mod_cast positive
  obtain ⟨lower, upper⟩ := roundHalfEven_within_half numerator positive
  generalize isRounded : roundHalfEven numerator denominator = rounded at lower upper
  have gap : (numerator : ℚ) / denominator - ((rounded : ℤ) : ℚ) =
      (numerator - denominator * rounded) / denominator := by
    push_cast
    field_simp
  rw [nearestEven_eq_iff]
  constructor
  · have lowerRat : 2 * (numerator : ℚ) ≤ 2 * (denominator * rounded) + denominator := by
      exact_mod_cast lower
    have upperRat : 2 * ((denominator : ℚ) * rounded) ≤ 2 * numerator + denominator := by
      exact_mod_cast upper
    rw [gap, abs_le, le_div_iff₀ denominatorPos, div_le_iff₀ denominatorPos]
    constructor <;> linarith
  · intro tie
    have half : ∃ odd : ℤ, Odd odd ∧ 2 * (numerator : ℤ) = odd * denominator := by
      rw [gap, abs_eq (by norm_num)] at tie
      rcases tie with above | below
      · refine ⟨2 * rounded + 1, ⟨rounded, rfl⟩, ?_⟩
        rw [div_eq_iff denominatorPos.ne'] at above
        have cleared : 2 * (numerator : ℚ) = (2 * rounded + 1) * denominator := by
          linarith
        exact_mod_cast cleared
      · refine ⟨2 * (rounded - 1) + 1, ⟨rounded - 1, rfl⟩, ?_⟩
        rw [div_eq_iff denominatorPos.ne'] at below
        have cleared : 2 * (numerator : ℚ) = (2 * (rounded - 1) + 1) * denominator := by
          linarith
        exact_mod_cast cleared
    obtain ⟨odd, isOdd, twice⟩ := half
    have even := roundHalfEven_tie (two_mul_mod_eq_of_odd positive isOdd twice)
    rw [isRounded] at even
    rw [Int.even_iff]
    exact_mod_cast even

/-! ## Significant digits -/

/-- `exact` rounded to a whole number of units. -/
def roundTo (unit exact : ℚ) : ℚ :=
  nearestEven (exact / unit) * unit

/-- The power of ten of the last of `digits` significant digits of `exact`. -/
def lastPlace (digits : ℕ) (exact : ℚ) : ℚ :=
  10 ^ (Int.log 10 |exact| + 1 - digits)

/-- `exact` rounded to `digits` significant digits, a tie going to the even last digit. -/
def roundSignificant (digits : ℕ) (exact : ℚ) : ℚ :=
  roundTo (lastPlace digits exact) exact

theorem lastPlace_pos (digits : ℕ) (exact : ℚ) : 0 < lastPlace digits exact :=
  zpow_pos (by norm_num) _

@[simp] theorem roundTo_zero (unit : ℚ) : roundTo unit 0 = 0 := by
  simp [roundTo]

@[simp] theorem roundTo_neg (unit exact : ℚ) : roundTo unit (-exact) = -roundTo unit exact := by
  rw [roundTo, neg_div, nearestEven_neg, roundTo]
  push_cast
  ring

@[simp] theorem lastPlace_neg (digits : ℕ) (exact : ℚ) :
    lastPlace digits (-exact) = lastPlace digits exact := by
  rw [lastPlace, abs_neg, lastPlace]

@[simp] theorem roundSignificant_zero (digits : ℕ) : roundSignificant digits 0 = 0 :=
  roundTo_zero _

@[simp] theorem roundSignificant_neg (digits : ℕ) (exact : ℚ) :
    roundSignificant digits (-exact) = -roundSignificant digits exact := by
  rw [roundSignificant, lastPlace_neg, roundTo_neg, roundSignificant]

@[simp] theorem cast_tenPow (exponent : ℕ) : ((tenPow exponent : ℕ) : ℚ) = 10 ^ exponent := by
  rw [tenPow, Nat.pow_eq]
  push_cast
  rfl

theorem tenPow_pred_mul_ten {digits : ℕ} (someDigits : 0 < digits) :
    tenPow (digits - 1) * 10 = tenPow digits := by
  rw [← tenPow_succ, Nat.sub_add_cancel someDigits]

theorem ten_pow_mul_zpow
    {count : ℕ} {exponent sum : ℤ}
    (isSum : count + exponent = sum) :
    (10 : ℚ) ^ count * 10 ^ exponent = 10 ^ sum := by
  rw [← zpow_natCast, ← zpow_add₀ (by norm_num), isSum]

theorem log_eq_of_le_of_lt
    {exact : ℚ} {exponent : ℤ}
    (reaches : (10 : ℚ) ^ exponent ≤ exact)
    (below : exact < (10 : ℚ) ^ (exponent + 1)) :
    Int.log 10 exact = exponent := by
  have positive : 0 < exact := lt_of_lt_of_le (zpow_pos (by norm_num) _) reaches
  have atLeast : exponent ≤ Int.log 10 exact :=
    (Int.zpow_le_iff_le_log (by norm_num) positive).mp (by exact_mod_cast reaches)
  have atMost : Int.log 10 exact < exponent + 1 :=
    (Int.lt_zpow_iff_log_lt (by norm_num) positive).mp (by exact_mod_cast below)
  omega

/-- Counted in its last place, a number has as many digits before the point as are kept. -/
theorem div_lastPlace_bounds
    {digits : ℕ} {exact : ℚ}
    (someDigits : 0 < digits)
    (positive : 0 < exact) :
    ((tenPow (digits - 1) : ℕ) : ℚ) ≤ exact / lastPlace digits exact ∧
      exact / lastPlace digits exact < (tenPow digits : ℕ) := by
  have lower := Int.zpow_log_le_self (b := 10) (by norm_num) positive
  have upper := Int.lt_zpow_succ_log_self (b := 10) (by norm_num) exact
  push_cast at lower upper
  have scaledLower :
      (10 : ℚ) ^ (digits - 1) * lastPlace digits exact = 10 ^ Int.log 10 exact := by
    rw [lastPlace, abs_of_pos positive]
    exact ten_pow_mul_zpow (by omega)
  have scaledUpper :
      (10 : ℚ) ^ digits * lastPlace digits exact = 10 ^ (Int.log 10 exact + 1) := by
    rw [lastPlace, abs_of_pos positive]
    exact ten_pow_mul_zpow (by omega)
  rw [le_div_iff₀ (lastPlace_pos ..), div_lt_iff₀ (lastPlace_pos ..), cast_tenPow, cast_tenPow,
    scaledLower, scaledUpper]
  exact ⟨lower, upper⟩

theorem nearestEven_div_lastPlace_bounds
    {digits : ℕ} {exact : ℚ}
    (someDigits : 0 < digits)
    (positive : 0 < exact) :
    (tenPow (digits - 1) : ℤ) ≤ nearestEven (exact / lastPlace digits exact) ∧
      nearestEven (exact / lastPlace digits exact) ≤ tenPow digits := by
  obtain ⟨lower, upper⟩ := div_lastPlace_bounds someDigits positive
  exact ⟨le_nearestEven (by exact_mod_cast lower), nearestEven_le (by exact_mod_cast upper.le)⟩

namespace Significant

/-- The number that a decimal with `digits` significant digits stands for. -/
def toRat (digits : ℕ) (decimal : Significant) : ℚ :=
  decimal.significand * 10 ^ (decimal.exponent + 1 - digits)

/-- The significand has exactly `digits` digits, the first of which is not zero. -/
def Normal (digits : ℕ) (decimal : Significant) : Prop :=
  tenPow (digits - 1) ≤ decimal.significand ∧ decimal.significand < tenPow digits

theorem Normal.toRat_pos
    {digits : ℕ} {decimal : Significant}
    (normal : decimal.Normal digits) :
    0 < decimal.toRat digits := by
  have significandPos := lt_of_lt_of_le (tenPow_pos (digits - 1)) normal.1
  exact mul_pos (by exact_mod_cast significandPos) (zpow_pos (by norm_num) _)

/-- The exponent of a decimal is that of the number it stands for. -/
theorem Normal.log_toRat
    {digits : ℕ} {decimal : Significant}
    (someDigits : 0 < digits)
    (normal : decimal.Normal digits) :
    Int.log 10 |decimal.toRat digits| = decimal.exponent := by
  rw [abs_of_pos normal.toRat_pos]
  obtain ⟨lower, upper⟩ := normal
  have unitPos : (0 : ℚ) < 10 ^ (decimal.exponent + 1 - digits : ℤ) := zpow_pos (by norm_num) _
  have lowerRat : (10 : ℚ) ^ (digits - 1) ≤ decimal.significand := by
    rw [← cast_tenPow]
    exact_mod_cast lower
  have upperRat : (decimal.significand : ℚ) < 10 ^ digits := by
    rw [← cast_tenPow]
    exact_mod_cast upper
  apply log_eq_of_le_of_lt
  · calc
      (10 : ℚ) ^ decimal.exponent
          = 10 ^ (digits - 1) * 10 ^ (decimal.exponent + 1 - digits) :=
            (ten_pow_mul_zpow (by omega)).symm
      _ ≤ decimal.toRat digits := mul_le_mul_of_nonneg_right lowerRat unitPos.le
  · calc
      decimal.toRat digits
          < 10 ^ digits * 10 ^ (decimal.exponent + 1 - digits) :=
            mul_lt_mul_of_pos_right upperRat unitPos
      _ = (10 : ℚ) ^ (decimal.exponent + 1) := ten_pow_mul_zpow (by omega)

/-- The decimal to which a positive number is rounded. -/
def ofRat (digits : ℕ) (exact : ℚ) : Significant :=
  let significand := (nearestEven (exact / lastPlace digits exact)).toNat
  if significand = tenPow digits then
    ⟨tenPow (digits - 1), Int.log 10 exact + 1⟩
  else
    ⟨significand, Int.log 10 exact⟩

section OfRat

variable {digits : ℕ} {exact : ℚ}

theorem ofRat_cases (someDigits : 0 < digits) (positive : 0 < exact) :
    nearestEven (exact / lastPlace digits exact) = tenPow digits ∧
        ofRat digits exact = ⟨tenPow (digits - 1), Int.log 10 exact + 1⟩ ∨
      ∃ significand : ℕ,
        tenPow (digits - 1) ≤ significand ∧ significand < tenPow digits ∧
          nearestEven (exact / lastPlace digits exact) = significand ∧
          ofRat digits exact = ⟨significand, Int.log 10 exact⟩ := by
  obtain ⟨lower, upper⟩ := nearestEven_div_lastPlace_bounds someDigits positive
  have nonneg : 0 ≤ nearestEven (exact / lastPlace digits exact) := by omega
  obtain ⟨significand, isSignificand⟩ := Int.eq_ofNat_of_zero_le nonneg
  rw [isSignificand] at lower upper ⊢
  rw [ofRat, isSignificand, Int.toNat_natCast]
  by_cases carries : significand = tenPow digits
  · rw [if_pos carries, carries]
    exact .inl ⟨rfl, rfl⟩
  · rw [if_neg carries]
    exact .inr ⟨significand, by omega, by omega, rfl, rfl⟩

theorem normal_ofRat (someDigits : 0 < digits) (positive : 0 < exact) :
    (ofRat digits exact).Normal digits := by
  rcases ofRat_cases someDigits positive with
    ⟨_, carried⟩ | ⟨significand, lower, upper, _, kept⟩
  · rw [carried]
    refine ⟨le_refl (tenPow (digits - 1)), ?_⟩
    change tenPow (digits - 1) < tenPow digits
    have powPos := tenPow_pos (digits - 1)
    rw [← tenPow_pred_mul_ten someDigits]
    omega
  · rw [kept]
    exact ⟨lower, upper⟩

/-- With a carry, the last place is ten times as large as before it. -/
theorem toRat_ofRat (someDigits : 0 < digits) (positive : 0 < exact) :
    (ofRat digits exact).toRat digits = roundSignificant digits exact := by
  rw [roundSignificant, roundTo]
  rcases ofRat_cases someDigits positive with
    ⟨rounded, carried⟩ | ⟨significand, _, _, rounded, kept⟩
  · have power : (Int.log 10 exact + 1 : ℤ) = digits + (Int.log 10 exact + 1 - digits) := by omega
    rw [carried, rounded, toRat, lastPlace, abs_of_pos positive, Int.cast_natCast, cast_tenPow,
      cast_tenPow, ten_pow_mul_zpow power.symm]
    apply ten_pow_mul_zpow
    dsimp only
    omega
  · rw [kept, rounded, toRat, lastPlace, abs_of_pos positive, Int.cast_natCast]

/-- The place of the last digit may be taken from the rounded number as well: a carry makes it larger,
but the number is near enough to a power of ten to be rounded to the same one. -/
theorem roundTo_ofRat (someDigits : 0 < digits) (positive : 0 < exact) :
    roundTo (10 ^ ((ofRat digits exact).exponent + 1 - digits)) exact =
      roundSignificant digits exact := by
  rcases ofRat_cases someDigits positive with
    ⟨rounded, carried⟩ | ⟨significand, _, _, rounded, kept⟩
  · have tenfold :
        (10 : ℚ) ^ (Int.log 10 exact + 1 + 1 - digits) = 10 * lastPlace digits exact := by
      rw [lastPlace, abs_of_pos positive, ← zpow_one_add₀ (by norm_num)]
      congr 1
      omega
    have near := (isNearestEven_nearestEven (exact / lastPlace digits exact)).near
    rw [rounded] at near
    -- What was within half of a unit is within a twentieth of the unit that the carry leads to.
    have gap :
        exact / (10 * lastPlace digits exact) - ((tenPow (digits - 1) : ℤ) : ℚ) =
          (exact / lastPlace digits exact - ((tenPow digits : ℤ) : ℚ)) / 10 := by
      rw [← tenPow_pred_mul_ten someDigits, mul_comm, ← div_div]
      push_cast
      ring
    have nearer :
        |exact / (10 * lastPlace digits exact) - ((tenPow (digits - 1) : ℤ) : ℚ)| < 1 / 2 := by
      rw [gap, abs_div, abs_of_pos (by norm_num : (0 : ℚ) < 10)]
      linarith
    have again : nearestEven (exact / (10 * lastPlace digits exact)) = tenPow (digits - 1) :=
      nearestEven_eq_iff.mpr ⟨nearer.le, fun tie => absurd tie nearer.ne⟩
    rw [← toRat_ofRat someDigits positive, carried, toRat, roundTo, tenfold, again, Int.cast_natCast]
  · rw [kept, roundSignificant, lastPlace, abs_of_pos positive]

end OfRat

/-! ## Rounding by digits -/

section Round

variable {value : ℕ} (digits scale : ℕ)

theorem log_div_ten_pow (positive : 0 < value) :
    Int.log 10 ((value : ℚ) / 10 ^ scale) = digitCount value - 1 - scale := by
  have countPos := digitCount_pos value
  have scalePos : (0 : ℚ) < 10 ^ scale := pow_pos (by norm_num) _
  have reaches : (10 : ℚ) ^ (digitCount value - 1) ≤ value := by
    rw [← cast_tenPow]
    exact_mod_cast tenPow_digitCount_le positive
  have below : (value : ℚ) < 10 ^ digitCount value := by
    rw [← cast_tenPow]
    exact_mod_cast lt_tenPow_digitCount value
  have scaledLower :
      (10 : ℚ) ^ (digitCount value - 1 - scale : ℤ) * 10 ^ scale = 10 ^ (digitCount value - 1) := by
    rw [mul_comm, ← zpow_natCast 10 (digitCount value - 1)]
    exact ten_pow_mul_zpow (by omega)
  have scaledUpper :
      (10 : ℚ) ^ (digitCount value - 1 - scale + 1 : ℤ) * 10 ^ scale = 10 ^ digitCount value := by
    rw [mul_comm, ← zpow_natCast 10 (digitCount value)]
    exact ten_pow_mul_zpow (by omega)
  apply log_eq_of_le_of_lt
  · rw [le_div_iff₀ scalePos, scaledLower]
    exact reaches
  · rw [div_lt_iff₀ scalePos, scaledUpper]
    exact below

theorem div_ten_pow_div_lastPlace (positive : 0 < value) :
    (value : ℚ) / 10 ^ scale / lastPlace digits (value / 10 ^ scale) =
      ((value * tenPow (digits - digitCount value) : ℕ) : ℚ) /
        (tenPow (digitCount value - digits) : ℕ) := by
  have exactPos : (0 : ℚ) < value / 10 ^ scale :=
    div_pos (by exact_mod_cast positive) (pow_pos (by norm_num) _)
  have place :
      (10 : ℚ) ^ (digitCount value - digits) =
        10 ^ (digits - digitCount value) * (10 ^ scale * lastPlace digits (value / 10 ^ scale)) := by
    rw [lastPlace, abs_of_pos exactPos, log_div_ten_pow scale positive, ten_pow_mul_zpow rfl,
      ten_pow_mul_zpow rfl, ← zpow_natCast]
    congr 1
    omega
  have unitPos : 0 < 10 ^ scale * lastPlace digits (value / 10 ^ scale) :=
    mul_pos (pow_pos (by norm_num) _) (lastPlace_pos ..)
  have powerPos : (0 : ℚ) < 10 ^ (digitCount value - digits) := pow_pos (by norm_num) _
  rw [div_div, div_eq_div_iff unitPos.ne' (by rw [cast_tenPow]; exact powerPos.ne'), Nat.cast_mul,
    cast_tenPow, cast_tenPow, place]
  ring

/-- Rounding by division of naturals rounds the quotient that they stand for. -/
theorem round_eq_ofRat (positive : 0 < value) :
    round digits value scale = ofRat digits (value / 10 ^ scale) := by
  rw [round, if_neg positive.ne', ofRat, div_ten_pow_div_lastPlace digits scale positive,
    nearestEven_div _ (tenPow_pos _), Int.toNat_natCast, log_div_ten_pow scale positive]
  have moved : (digitCount value : ℤ) - 1 - scale + 1 = digitCount value - scale := by omega
  rw [moved]

end Round

end Significant

end StackMachine.Decimal
