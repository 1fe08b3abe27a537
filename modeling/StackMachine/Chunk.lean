import StackMachine.Instruction.Basic
import StackMachine.Value

/-!
Contract: chunks, the units of code that the machine runs.

A chunk holds code bytes, the source line of every byte, and the constants that the code loads.
It only grows, byte by byte and constant by constant, until it is cleared.

Owns:
- the chunk with one line per byte as part of its type;
- appending bytes, operations, instructions and constants, and the limit on emitted constants;
- look-up of constants and lines, and equality of chunks.

Does not own: the meaning of the code.
-/

set_option autoImplicit false

namespace StackMachine

/-- An instruction names a constant by one byte, so it reaches this many of them. -/
def maxConstants : Nat := 256

/-- Why an append to a chunk is refused. -/
inductive ChunkError where
  | tooManyConstants
deriving DecidableEq, Repr

def ChunkError.message : ChunkError → String
  | .tooManyConstants => s!"too many constants in one chunk (limit {maxConstants})"

/-- Code with the source line of every byte, and the pool of constants that it refers to. -/
structure Chunk where
  code : Array UInt8 := #[]
  lines : Array Nat := #[]
  constants : Array Value := #[]
  lines_size : lines.size = code.size := by rfl
deriving DecidableEq, Repr

namespace Chunk

instance : EmptyCollection Chunk where
  emptyCollection := { }

/-- The number of code bytes. -/
def size (chunk : Chunk) : Nat :=
  chunk.code.size

/-- Whether there is no code; the pool may hold constants all the same. -/
def isEmpty (chunk : Chunk) : Bool :=
  chunk.code.isEmpty

/-- The pool entry that an instruction names by `index`. -/
def constant? (chunk : Chunk) (index : UInt8) : Option Value :=
  chunk.constants[index.toNat]?

/-- The source line of the byte at `offset`. -/
def line? (chunk : Chunk) (offset : Nat) : Option Nat :=
  chunk.lines[offset]?

/-- A line is recorded for an offset exactly when there is a byte. -/
theorem line?_eq_none_iff (chunk : Chunk) (offset : Nat) :
    chunk.line? offset = none ↔ chunk.size ≤ offset := by
  unfold line? size
  rw [Array.getElem?_eq_none_iff, chunk.lines_size]

/-! ## Appending code -/

/-- Appends one byte of code that comes from `line`. -/
def write (chunk : Chunk) (byte : UInt8) (line : Nat) : Chunk :=
  { chunk with
    code := chunk.code.push byte
    lines := chunk.lines.push line
    lines_size := by simp [chunk.lines_size] }

def writeOperation (chunk : Chunk) (operation : Operation) (line : Nat) : Chunk :=
  chunk.write operation.code line

/-- Appends every byte of an instruction, all of them on one line. -/
def writeInstruction (chunk : Chunk) (instruction : Instruction) (line : Nat) : Chunk :=
  instruction.encode.bytes.foldl (fun written byte => written.write byte line) chunk

@[simp] theorem constants_write (chunk : Chunk) (byte : UInt8) (line : Nat) :
    (chunk.write byte line).constants = chunk.constants :=
  rfl

/-! ## Appending constants -/

/-- Appends a constant to the pool and gives its index, which an instruction need not reach. -/
def addConstant (chunk : Chunk) (value : Value) : Chunk × Nat :=
  ({ chunk with constants := chunk.constants.push value }, chunk.constants.size)

/-- Appends a constant and the instruction that loads it, and gives the index of the constant.
Refused, with nothing appended, when no instruction could reach the new pool entry. -/
def writeConstant (chunk : Chunk) (value : Value) (line : Nat) :
    Chunk × Except ChunkError UInt8 :=
  if maxConstants ≤ chunk.constants.size then
    (chunk, .error .tooManyConstants)
  else
    let (extended, position) := chunk.addConstant value
    let index := UInt8.ofNat position
    (extended.writeInstruction (.constant index) line, .ok index)

/-- Drops code, lines and constants. -/
def clear (_ : Chunk) : Chunk :=
  ∅

/-! ## Equality -/

/-- Equality of code and lines, and of the pools entry by entry as values compare. -/
instance : BEq Chunk where
  beq left right :=
    left.code == right.code && left.lines == right.lines && left.constants == right.constants

end Chunk

end StackMachine
