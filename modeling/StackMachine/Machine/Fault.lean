import StackMachine.Instruction.Basic
import StackMachine.Value

/-!
Contract: what can end an interpretation other than a `Return`.

Owns: the faults of the machine, their place in a chunk, the errors of an interpretation, and
all their texts and exit codes.
Does not own: when a fault arises.
-/

set_option autoImplicit false

namespace StackMachine

/-- Why an instruction cannot be executed. -/
inductive Fault where
  | unknownOpcode (byte : UInt8)
  | unexpectedEnd
  | stackUnderflow
  | stackOverflow (limit : Nat)
  | operandKind (operation : Operation) (found : Kind)
  | constantIndex (index : UInt8) (poolSize : Nat)
deriving DecidableEq, Repr

def Fault.message : Fault → String
  | .unknownOpcode byte => s!"unknown opcode {byte}"
  | .unexpectedEnd => "unexpected end of code"
  | .stackUnderflow => "stack underflow"
  | .stackOverflow limit => s!"stack overflow (limit {limit})"
  | .operandKind operation found =>
      s!"operand of {operation.name} must be a number, found {found.name}"
  | .constantIndex index poolSize =>
      s!"constant index {index} out of range for a pool of {poolSize}"

/-- A fault with the offset of the instruction that raised it and a source line, if any. -/
structure RuntimeError where
  fault : Fault
  offset : Nat
  line : Option Nat
deriving DecidableEq, Repr

def RuntimeError.message (error : RuntimeError) : String :=
  let place :=
    match error.line with
    | some line => s!"[line {line}] "
    | none => ""
  s!"{place}{error.fault.message} at offset {error.offset}"

/-- Why an interpretation fails.  Running a chunk gives only runtime errors; `compile` is for a
front end that checks source text before there is a chunk. -/
inductive InterpretError where
  | compile (reason : String)
  | runtime (error : RuntimeError)
deriving DecidableEq, Repr

namespace InterpretError

def message : InterpretError → String
  | .compile reason => s!"compile error: {reason}"
  | .runtime error => s!"runtime error: {error.message}"

/-- The exit code of a process that ends with this error: malformed input or internal error. -/
def exitCode : InterpretError → Nat
  | .compile _ => 65
  | .runtime _ => 70

/-- The message of the error that lies under this one. -/
def source? : InterpretError → Option String
  | .compile _ => none
  | .runtime error => some error.message

end InterpretError

end StackMachine
