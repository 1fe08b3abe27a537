/-!
Contract: the operations of the machine, its instructions, and their bytes.

Owns:
- the operations with their codes, names and operand counts, and the reading of both;
- instructions and their text;
- the encoding of an instruction as one or two bytes.

Does not own: reading an instruction back from code, or what an instruction does.
-/

set_option autoImplicit false

namespace StackMachine

/-! ## Operations -/

/-- What an instruction does, without its operands. -/
inductive Operation where
  | constant
  | negate
  | ret
deriving DecidableEq, Repr

/-- Why a byte or a text names no operation. -/
inductive UnknownOperation where
  | code (byte : UInt8)
  | name
deriving DecidableEq, Repr

def UnknownOperation.message : UnknownOperation → String
  | .code byte => s!"No discriminant in enum `Operation` matches the value `{byte}`"
  | .name => "Matching variant not found"

namespace Operation

/-- The byte that stands for an operation in code. -/
def code : Operation → UInt8
  | .constant => 0
  | .negate => 1
  | .ret => 2

def name : Operation → String
  | .constant => "Constant"
  | .negate => "Negate"
  | .ret => "Return"

/-- The number of operand bytes that follow the operation's own byte. -/
def arity : Operation → Nat
  | .constant => 1
  | .negate => 0
  | .ret => 0

/-- The number of bytes of an instruction with this operation. -/
def size (operation : Operation) : Nat :=
  1 + operation.arity

/-- The operation that a byte of code stands for. -/
def ofCode (byte : UInt8) : Except UnknownOperation Operation :=
  if byte = 0 then .ok .constant
  else if byte = 1 then .ok .negate
  else if byte = 2 then .ok .ret
  else .error (.code byte)

/-- The operation of a name, which has to match letter for letter. -/
def ofName (text : String) : Except UnknownOperation Operation :=
  if text = "Constant" then .ok .constant
  else if text = "Negate" then .ok .negate
  else if text = "Return" then .ok .ret
  else .error .name

@[simp] theorem ofCode_code (operation : Operation) : ofCode operation.code = .ok operation := by
  cases operation <;> rfl

/-- A byte is read as an operation exactly when it is the operation's code. -/
theorem ofCode_eq_ok_iff (byte : UInt8) (operation : Operation) :
    ofCode byte = .ok operation ↔ byte = operation.code := by
  constructor
  · intro read
    unfold ofCode at read
    split at read
    · cases read
      assumption
    · split at read
      · cases read
        assumption
      · split at read
        · cases read
          assumption
        · cases read
  · rintro rfl
    exact ofCode_code operation

@[simp] theorem ofName_name (operation : Operation) : ofName operation.name = .ok operation := by
  cases operation <;> rfl

theorem size_pos (operation : Operation) : 0 < operation.size := by
  unfold size
  omega

end Operation

/-! ## Instructions -/

/-- An operation together with its operands. -/
inductive Instruction where
  | constant (index : UInt8)
  | negate
  | ret
deriving DecidableEq, Repr

/-- The bytes of one instruction. -/
inductive Encoding where
  | byte (code : UInt8)
  | twoBytes (code operand : UInt8)
deriving DecidableEq, Repr

namespace Encoding

/-- The bytes in the order in which they stand in code. -/
def bytes : Encoding → List UInt8
  | .byte code => [code]
  | .twoBytes code operand => [code, operand]

def size : Encoding → Nat
  | .byte _ => 1
  | .twoBytes _ _ => 2

@[simp] theorem length_bytes (encoding : Encoding) : encoding.bytes.length = encoding.size := by
  cases encoding <;> rfl

end Encoding

namespace Instruction

def operation : Instruction → Operation
  | .constant _ => .constant
  | .negate => .negate
  | .ret => .ret

/-- The name of the operation, followed by the pool index that a constant loads. -/
def text : Instruction → String
  | .constant index => s!"{Operation.constant.name}({index})"
  | .negate => Operation.negate.name
  | .ret => Operation.ret.name

def encode : Instruction → Encoding
  | .constant index => .twoBytes Operation.constant.code index
  | .negate => .byte Operation.negate.code
  | .ret => .byte Operation.ret.code

/-- The encoding has the size that its operation announces. -/
@[simp] theorem size_encode (instruction : Instruction) :
    instruction.encode.size = instruction.operation.size := by
  cases instruction <;> rfl

end Instruction

end StackMachine
