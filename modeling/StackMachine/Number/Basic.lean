/-!
Contract: binary floating-point numbers of 64 bits, as their three fields.

Owns:
- the fields and their packing into one 64-bit word, in both directions;
- the classes of numbers (not a number, infinite, zero) and the exact finite magnitude;
- negation and numeric equality.

Does not own: arithmetic other than negation, or the text of a number.
-/

set_option autoImplicit false

namespace StackMachine

/-- A binary64 number: the sign bit, the biased exponent and the fraction. -/
structure Number where
  sign : Bool
  exponent : BitVec 11
  fraction : BitVec 52
deriving DecidableEq, Repr

namespace Number

/-! ## The 64-bit word -/

/-- The number whose fields stand in `word`, most significant first: sign, exponent, fraction. -/
def ofBits (word : BitVec 64) : Number where
  sign := word.msb
  exponent := word.extractLsb' 52 11
  fraction := word.extractLsb' 0 52

/-- The fields as one word, the sign in the most significant bit. -/
def toBits (number : Number) : BitVec 64 :=
  BitVec.ofBool number.sign ++ number.exponent ++ number.fraction

@[simp] theorem ofBits_toBits (number : Number) : ofBits number.toBits = number := by
  obtain ⟨sign, exponent, fraction⟩ := number
  have signBit : (BitVec.ofBool sign ++ exponent ++ fraction).msb = sign := by
    rw [BitVec.msb_append, if_neg (by decide), BitVec.msb_append, if_neg (by decide),
      BitVec.msb_ofBool]
  have exponentBits :
      (BitVec.ofBool sign ++ exponent ++ fraction).extractLsb' 52 11 = exponent := by
    rw [BitVec.extractLsb'_append_eq_of_le (by decide)]
    exact BitVec.extractLsb'_append_eq_right
  have fractionBits :
      (BitVec.ofBool sign ++ exponent ++ fraction).extractLsb' 0 52 = fraction :=
    BitVec.extractLsb'_append_eq_right
  exact congr (congr (congrArg Number.mk signBit) exponentBits) fractionBits

@[simp] theorem toBits_ofBits (word : BitVec 64) : (ofBits word).toBits = word := by
  apply BitVec.eq_of_getLsbD_eq
  intro index inWord
  simp only [ofBits, toBits, BitVec.getLsbD_append, BitVec.getLsbD_extractLsb',
    BitVec.getLsbD_ofBool, BitVec.msb_eq_getLsbD_last]
  by_cases inFraction : index < 52
  · simp [inFraction]
  · by_cases inExponent : index < 63
    · have inField : index - 52 < 11 := by omega
      have position : 52 + (index - 52) = index := by omega
      simp [inFraction, inField, position]
    · have isSign : index = 63 := by omega
      subst isSign
      simp

/-! ## Classes -/

/-- Neither a number nor an infinity: all exponent bits set, and some fraction bit. -/
def isNaN (number : Number) : Bool :=
  number.exponent == BitVec.allOnes 11 && number.fraction != 0

/-- Positive or negative infinity: all exponent bits set, and no fraction bit. -/
def isInfinite (number : Number) : Bool :=
  number.exponent == BitVec.allOnes 11 && number.fraction == 0

/-- Positive or negative zero. -/
def isZero (number : Number) : Bool :=
  number.exponent == 0 && number.fraction == 0

/-- The bits of a finite magnitude.  The bit in front of the fraction is not stored: it is set
exactly when the exponent field is not zero. -/
def significand (number : Number) : Nat :=
  (BitVec.ofBool (number.exponent != 0) ++ number.fraction).toNat

/-- The places by which the significand is moved up, counted from the least exponent. -/
def shift (number : Number) : Nat :=
  number.exponent.toNat - 1

/-- The least positive magnitude is two to the power `-unitPlaces`.  It is the unit of all finite
magnitudes. -/
def unitPlaces : Nat := 1074

/-- The magnitude of a finite number as a whole number of units. -/
def units (number : Number) : Nat :=
  number.significand <<< number.shift

/-! ## Negation and equality -/

/-- Negation flips the sign bit of every number, zeros and non-numbers included. -/
instance : Neg Number where
  neg number := { number with sign := !number.sign }

@[simp] theorem neg_neg (number : Number) : -(-number) = number := by
  cases number
  simp [Neg.neg]

/-- Numeric equality: the two zeros are equal, and what is not a number equals nothing. -/
instance : BEq Number where
  beq left right :=
    !left.isNaN && !right.isNaN && (left = right || left.isZero && right.isZero)

end Number

end StackMachine
