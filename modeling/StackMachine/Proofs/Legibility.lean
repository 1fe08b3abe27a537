import StackMachine.Listing
import StackMachine.Proofs.NumeralReading
import StackMachine.Proofs.TableReading

/-!
Contract: what the cells of listing tables hold is legible.

Digits, numerals and the texts of values have no blank at all, and the few cells of several words
neither start nor end with one.  So a listing table can be read back whatever its listings are.

Owns: the legibility of numerals, values and listings.
Does not own: what the texts say.
-/

set_option autoImplicit false

namespace StackMachine

/-- Whether a character can stand anywhere in a legible text. -/
def isInk (char : Char) : Bool :=
  char != '│' && char != '\n' && char != ' '

/-- Every character is ink. -/
def Inked (text : List Char) : Prop :=
  ∀ char ∈ text, isInk char = true

instance (text : List Char) : Decidable (Inked text) :=
  List.decidableBAll (fun char => isInk char = true) text

@[simp] theorem inked_nil : Inked [] := by
  simp [Inked]

@[simp] theorem inked_cons_iff (char : Char) (text : List Char) :
    Inked (char :: text) ↔ isInk char = true ∧ Inked text := by
  simp [Inked]

@[simp] theorem inked_append_iff (left right : List Char) :
    Inked (left ++ right) ↔ Inked left ∧ Inked right := by
  simp [Inked, or_imp, forall_and]

theorem Inked.legible {text : List Char} (inked : Inked text) : Legible text where
  noBar := fun member => absurd (inked _ member) (by decide)
  noLineEnd := fun member => absurd (inked _ member) (by decide)
  firstNotBlank := fun first => absurd (inked _ (List.mem_of_head? first)) (by decide)
  lastNotBlank := fun last => absurd (inked _ (List.mem_of_getLast? last)) (by decide)

/-- Two legible texts with a blank between them are legible, unless one of them is empty. -/
theorem Legible.append_blank_append
    {left right : List Char}
    (leftLegible : Legible left)
    (rightLegible : Legible right)
    (someLeft : left ≠ [])
    (someRight : right ≠ []) :
    Legible (left ++ ' ' :: right) where
  noBar := by simp [leftLegible.noBar, rightLegible.noBar]
  noLineEnd := by simp [leftLegible.noLineEnd, rightLegible.noLineEnd]
  firstNotBlank := by
    rw [List.head?_append, List.head?_eq_some_head someLeft, Option.some_or,
      ← List.head?_eq_some_head someLeft]
    exact leftLegible.firstNotBlank
  lastNotBlank := by
    rw [List.append_cons, List.getLast?_append, List.getLast?_eq_some_getLast someRight,
      Option.some_or, ← List.getLast?_eq_some_getLast someRight]
    exact rightLegible.lastNotBlank

/-! ## Numerals -/

theorem isInk_of_isDigit {char : Char} (isDigit : char.isDigit = true) : isInk char = true := by
  have notBar : char ≠ '│' := by
    rintro rfl
    exact absurd isDigit (by decide)
  have notLineEnd : char ≠ '\n' := by
    rintro rfl
    exact absurd isDigit (by decide)
  have notBlank : char ≠ ' ' := by
    rintro rfl
    exact absurd isDigit (by decide)
  simp [isInk, notBar, notLineEnd, notBlank]

theorem AllDigits.inked {text : List Char} (allDigits : AllDigits text) : Inked text :=
  fun char member => isInk_of_isDigit (allDigits char member)

namespace Number

theorem inked_fractionText {digits : List Char} (allDigits : AllDigits digits) :
    Inked (fractionText digits) := by
  have kept := (allDigits_dropTrailingZeros allDigits).inked
  rcases fractionText_cases digits with ⟨_, text⟩ | ⟨_, text⟩
  · rw [text]
    exact inked_nil
  · rw [text, inked_cons_iff]
    exact ⟨by decide, kept⟩

theorem inked_positional (significand places : Nat) : Inked (positional significand places) := by
  rw [positional, inked_append_iff]
  exact ⟨(allDigits_toDigits _).inked, inked_fractionText (Decimal.allDigits_zeroPadded _ _)⟩

theorem inked_exponentText (exponent : Int) : Inked (exponentText exponent) := by
  rw [exponentText, inked_cons_iff, inked_cons_iff]
  refine ⟨by decide, ?_, (Decimal.allDigits_zeroPadded _ _).inked⟩
  split <;> decide

theorem inked_magnitudeText (decimal : Decimal.Significant) : Inked (magnitudeText decimal) := by
  unfold magnitudeText
  split
  · exact inked_positional _ _
  · rw [inked_append_iff]
    exact ⟨inked_positional _ _, inked_exponentText _⟩

theorem inked_signText (number : Number) : Inked number.signText := by
  unfold signText
  split <;> decide

theorem inked_text (number : Number) : Inked number.text.toList := by
  unfold text
  split
  · decide
  · split
    · rw [String.toList_ofList, inked_append_iff]
      exact ⟨inked_signText number, by decide⟩
    · rw [String.toList_ofList, inked_append_iff]
      exact ⟨inked_signText number, inked_magnitudeText _⟩

end Number

theorem Value.inked_text (value : Value) : Inked value.text.toList := by
  cases value with
  | number datum => exact datum.inked_text
  | bool truth => cases truth <;> decide
  | nil => decide

/-! ## Listings -/

theorem toList_toString_nat (number : Nat) : (toString number).toList = Nat.toDigits 10 number :=
  Nat.toList_repr

theorem toList_toString_byte (byte : UInt8) :
    (toString byte).toList = Nat.toDigits 10 byte.toNat :=
  Nat.toList_repr

theorem toList_text_constant (index : UInt8) :
    (Instruction.constant index).text.toList =
      "Constant(".toList ++ Nat.toDigits 10 index.toNat ++ [')'] := by
  change ("Constant" ++ "(" ++ toString index ++ ")").toList = _
  simp only [String.toList_append, toList_toString_byte]
  rfl

theorem toList_text_unknownOpcode (byte : UInt8) :
    (s!"Unknown opcode {byte}").toList =
      "Unknown opcode".toList ++ ' ' :: Nat.toDigits 10 byte.toNat := by
  change ("Unknown opcode " ++ toString byte).toList = _
  rw [String.toList_append, toList_toString_byte]
  rfl

theorem Instruction.inked_text (instruction : Instruction) : Inked instruction.text.toList := by
  cases instruction with
  | constant index =>
      rw [toList_text_constant, inked_append_iff, inked_append_iff]
      exact ⟨⟨by decide, (allDigits_toDigits _).inked⟩, by decide⟩
  | negate => decide
  | ret => decide

namespace Listing

variable (listing : Listing)

theorem legible_offsetText : Legible listing.offsetText.toList := by
  rw [offsetText, String.toList_ofList]
  exact (Decimal.allDigits_zeroPadded _ _).inked.legible

theorem legible_lineText : Legible listing.lineText.toList := by
  apply Inked.legible
  unfold lineText
  split
  · decide
  · rw [toList_toString_nat]
    exact (allDigits_toDigits _).inked
  · decide

theorem legible_instructionText : Legible listing.instructionText.toList := by
  unfold instructionText
  split
  · exact (Instruction.inked_text _).legible
  · rw [toList_text_unknownOpcode]
    apply Legible.append_blank_append _ (allDigits_toDigits _).inked.legible (by decide)
      Nat.toDigits_ne_nil
    exact ⟨by decide, by decide, by decide, by decide⟩
  · rename_i operation _
    apply Inked.legible
    cases operation <;> decide
  · exact ⟨by decide, by decide, by decide, by decide⟩

theorem legible_constantText : Legible listing.constantText.toList := by
  unfold constantText
  split
  · rename_i value _ _
    have quoted : (s!"'{value.text}'").toList = ['\''] ++ value.text.toList ++ ['\''] := by
      change ("'" ++ value.text ++ "'").toList = _
      rw [String.toList_append, String.toList_append]
      rfl
    apply Inked.legible
    rw [quoted, inked_append_iff, inked_append_iff]
    exact ⟨⟨by decide, value.inked_text⟩, by decide⟩
  · exact ⟨by decide, by decide, by decide, by decide⟩
  · exact inked_nil.legible

end Listing

/-- Every table of listings can be read back, whatever the listings are. -/
theorem Disassembly.allLegible_table (disassembly : Disassembly) :
    disassembly.table.AllLegible where
  someColumns := List.cons_ne_nil _ _
  titles := by
    intro column member
    simp only [table, Listing.columns, List.mem_cons, List.not_mem_nil, or_false] at member
    apply Inked.legible
    rcases member with rfl | rfl | rfl | rfl <;> decide
  cells := by
    intro column member listing _
    simp only [table, Listing.columns, List.mem_cons, List.not_mem_nil, or_false] at member
    rcases member with rfl | rfl | rfl | rfl
    · exact listing.legible_offsetText
    · exact listing.legible_lineText
    · exact listing.legible_instructionText
    · exact listing.legible_constantText

end StackMachine
