import StackMachine.Instruction.Basic

/-!
Contract: reading instructions back from bytes.

Owns:
- the operands that each operation takes, from any source of bytes that can fail;
- decoding at an offset of a byte array, which only reads;
- the reasons why the bytes at an offset are no instruction.

Does not own: where the next instruction starts, or what is done with bytes that do not decode.
-/

set_option autoImplicit false

namespace StackMachine

/-- Why the bytes at an offset are no instruction. -/
inductive DecodeError where
  | endOfCode (offset : Nat)
  | unknownOpcode (offset : Nat) (byte : UInt8)
  | missingOperand (offset : Nat) (operation : Operation)
deriving DecidableEq, Repr

def DecodeError.message : DecodeError → String
  | .endOfCode offset => s!"no instruction at offset {offset}: end of code"
  | .unknownOpcode offset byte => s!"unknown opcode {byte} at offset {offset}"
  | .missingOperand offset operation =>
      s!"{operation.name} at offset {offset} is missing its operand"

/-- Completes an operation to an instruction.  Each operand is asked of `nextOperand` once, in
the order of the bytes, and a failure of `nextOperand` is the failure of the whole. -/
def Operation.withOperands
    {m : Type → Type}
    [Monad m]
    (nextOperand : m UInt8) :
    Operation → m Instruction
  | .constant => do
      let index ← nextOperand
      return .constant index
  | .negate => return .negate
  | .ret => return .ret

/-- The instruction that starts at `offset`. -/
def Instruction.decode (code : Array UInt8) (offset : Nat) : Except DecodeError Instruction :=
  match code[offset]? with
  | none => .error (.endOfCode offset)
  | some byte =>
      match Operation.ofCode byte with
      | .error _ => .error (.unknownOpcode offset byte)
      | .ok operation =>
          operation.withOperands <|
            match code[offset + 1]? with
            | none => .error (.missingOperand offset operation)
            | some operand => .ok operand

end StackMachine
