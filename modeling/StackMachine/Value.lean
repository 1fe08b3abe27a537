import StackMachine.Number.Numeral

/-!
Contract: the values that a program computes with.

Owns: the three kinds of value, their names and texts, and equality of values.
Does not own: the text of numbers.
-/

set_option autoImplicit false

namespace StackMachine

/-- What a value can be, for diagnostics. -/
inductive Kind where
  | number
  | bool
  | nil
deriving DecidableEq, Repr

/-- The name of a kind, as diagnostics write it. -/
def Kind.name : Kind → String
  | .number => "number"
  | .bool => "bool"
  | .nil => "nil"

/-- A datum on the stack or in a constant pool. -/
inductive Value where
  | number (datum : Number)
  | bool (truth : Bool)
  | nil
deriving DecidableEq, Repr

namespace Value

def kind : Value → Kind
  | .number _ => .number
  | .bool _ => .bool
  | .nil => .nil

/-- The number that a value is, if it is one. -/
def number? : Value → Option Number
  | .number datum => some datum
  | .bool _ => none
  | .nil => none

def isNumber (value : Value) : Bool :=
  value.number?.isSome

theorem isNumber_iff_kind (value : Value) : value.isNumber = true ↔ value.kind = .number := by
  cases value <;> simp [isNumber, number?, kind]

theorem exists_eq_number {value : Value} (isNumber : value.kind = .number) :
    ∃ datum, value = .number datum := by
  cases value with
  | number datum => exact ⟨datum, rfl⟩
  | bool truth => cases isNumber
  | nil => cases isNumber

/-- The text of a value, as listings and stack tables show it. -/
def text : Value → String
  | .number datum => datum.text
  | .bool true => "true"
  | .bool false => "false"
  | .nil => "nil"

/-- Equality of values; numbers compare numerically, so a value need not equal itself. -/
instance : BEq Value where
  beq
    | .number left, .number right => left == right
    | .bool left, .bool right => left == right
    | .nil, .nil => true
    | _, _ => false

end Value

end StackMachine
