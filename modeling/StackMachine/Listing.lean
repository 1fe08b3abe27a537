import StackMachine.Chunk
import StackMachine.Instruction.Decode
import StackMachine.Table

/-!
Contract: listings of chunks for a human reader.

A listing shows what stands at one offset of a chunk.  Bytes that do not decode are listed as
well, so that a corrupt chunk can be inspected from its first byte to its last.

Owns:
- the listing at any offset, inside the code or past its end, and the offset that follows it;
- the walk through a whole chunk;
- the texts and the table of listings, and their equality.

Does not own: execution.
-/

set_option autoImplicit false

namespace StackMachine

/-- What stands at one offset of a chunk. -/
structure Listing where
  offset : Nat
  /-- The source line of the byte at the offset. -/
  line : Option Nat
  /-- Whether the byte before the offset has the same line entry, or both have none. -/
  sameLine : Bool
  decoded : Except DecodeError Instruction
  /-- The pool entry that a `Constant` instruction refers to, if it exists. -/
  constant : Option Value

/-! ## Listing a chunk -/

namespace Chunk

/-- What stands at `offset`. -/
def listingAt (chunk : Chunk) (offset : Nat) : Listing :=
  let decoded := Instruction.decode chunk.code offset
  { offset
    line := chunk.line? offset
    sameLine := decide (0 < offset) && chunk.line? offset == chunk.line? (offset - 1)
    decoded
    constant :=
      match decoded with
      | .ok (.constant index) => chunk.constant? index
      | _ => none }

/-- Where the listing after the one at `offset` starts.  An unknown opcode is passed over alone;
where operands or all bytes are missing, the code is at its end. -/
def nextOffset (chunk : Chunk) (offset : Nat) : Nat :=
  match Instruction.decode chunk.code offset with
  | .ok instruction => offset + instruction.operation.size
  | .error (.unknownOpcode _ _) => offset + 1
  | .error _ => chunk.size

/-- Inside the code, the next listing starts further on. -/
theorem lt_nextOffset
    (chunk : Chunk)
    {offset : Nat}
    (inside : offset < chunk.size) :
    offset < chunk.nextOffset offset := by
  unfold nextOffset
  split
  · rename_i instruction _
    have sizePos := instruction.operation.size_pos
    omega
  · omega
  · exact inside

/-- The listings from `offset` on, to the end of the code. -/
def listingsFrom (chunk : Chunk) (offset : Nat) : List Listing :=
  if offset < chunk.size then
    chunk.listingAt offset :: chunk.listingsFrom (chunk.nextOffset offset)
  else
    []
termination_by chunk.size - offset
decreasing_by
  rename_i inside
  have further := chunk.lt_nextOffset inside
  omega

end Chunk

/-! ## Texts -/

namespace Listing

/-- The least number of digits in a written offset. -/
def offsetWidth : Nat := 4

def offsetText (listing : Listing) : String :=
  .ofList (Decimal.zeroPadded offsetWidth listing.offset)

/-- The line, a bar for the line of the byte before, or a question mark where there is none. -/
def lineText (listing : Listing) : String :=
  match listing.sameLine, listing.line with
  | true, _ => "|"
  | false, some line => toString line
  | false, none => "?"

def instructionText (listing : Listing) : String :=
  match listing.decoded with
  | .ok instruction => instruction.text
  | .error (.unknownOpcode _ byte) => s!"Unknown opcode {byte}"
  | .error (.missingOperand _ operation) => s!"{operation.name}(<missing>)"
  | .error (.endOfCode _) => "<end of code>"

/-- The constant that a `Constant` instruction refers to; nothing for any other listing. -/
def constantText (listing : Listing) : String :=
  match listing.decoded, listing.constant with
  | .ok (.constant _), some value => s!"'{value.text}'"
  | .ok (.constant _), none => "<out of range>"
  | _, _ => ""

/-- The listing on one line; a short line number is moved to the right. -/
def text (listing : Listing) : String :=
  let line := String.ofList (Alignment.right.pad 4 listing.lineText.toList)
  s!"{listing.offsetText} {line} {listing.instructionText} {listing.constantText}"

def columns : List (Column Listing) :=
  [ { title := "Offset", alignment := .right, cell := offsetText },
    { title := "Line", alignment := .right, cell := lineText },
    { title := "Instruction", alignment := .left, cell := instructionText },
    { title := "Constant", alignment := .left, cell := constantText } ]

/-! ## Equality -/

/-- Whether two attempts to decode ended alike. -/
def decodedAlike : Except DecodeError Instruction → Except DecodeError Instruction → Bool
  | .ok left, .ok right => left == right
  | .error left, .error right => left == right
  | _, _ => false

/-- Equality of all parts, where constants compare as values. -/
instance : BEq Listing where
  beq left right :=
    left.offset == right.offset && left.line == right.line && left.sameLine == right.sameLine &&
      decodedAlike left.decoded right.decoded && left.constant == right.constant

end Listing

/-! ## Whole chunks -/

/-- Listings under a name. -/
structure Disassembly where
  name : String
  listings : List Listing

/-- All listings of a chunk, from its first byte on. -/
def Chunk.disassemble (chunk : Chunk) (name : String) : Disassembly :=
  { name, listings := chunk.listingsFrom 0 }

namespace Disassembly

def table (disassembly : Disassembly) : Table Listing :=
  { columns := Listing.columns, rows := disassembly.listings }

/-- A heading with the name, and the table of the listings. -/
def text (disassembly : Disassembly) : String :=
  s!"== {disassembly.name} ==\n{disassembly.table.text}"

instance : BEq Disassembly where
  beq left right := left.name == right.name && left.listings == right.listings

end Disassembly

end StackMachine
