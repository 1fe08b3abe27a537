import StackMachine.Listing
import StackMachine.Machine.Run

/-!
Contract: texts that show a machine and its run.

Owns: the table of a stack, the text of a machine, and the trace of an interpretation.
Does not own: listings and table layout.
-/

set_option autoImplicit false

namespace StackMachine.Machine

/-- One place of a stack, counted from the bottom. -/
structure Slot where
  index : Nat
  isTop : Bool
  value : Value
deriving DecidableEq, Repr

/-- The slot's number, which an arrow marks at the top of the stack. -/
def Slot.label (slot : Slot) : String :=
  if slot.isTop then s!"* --> [{slot.index}] =" else s!"[{slot.index}] ="

def Slot.columns : List (Column Slot) :=
  [ { title := "Slot", alignment := .right, cell := Slot.label },
    { title := "Value", alignment := .left, cell := fun slot => slot.value.text } ]

/-- The slots of the stack, the bottom one first. -/
def slots (machine : Machine) : List Slot :=
  machine.stack.reverse.zipIdx.map fun (value, index) =>
    { index, isTop := index + 1 == machine.stack.length, value }

def stackTable (machine : Machine) : Table Slot :=
  { columns := Slot.columns, rows := machine.slots }

/-- The cursor, the stack depth, and the stack as a table. -/
def text (machine : Machine) : String :=
  let cursor := String.ofList (Decimal.zeroPadded Listing.offsetWidth machine.cursor)
  s!"IP: {cursor}\tStack depth: {machine.stack.length}\n{machine.stackTable.text}"

/-- The machine before an instruction, and the instruction that it is about to fetch, if there is
a byte of it. -/
def traceEntry (chunk : Chunk) (machine : Machine) : String :=
  let upcoming :=
    if machine.cursor < chunk.size then
      s!"{(chunk.listingAt machine.cursor).text}\n"
    else
      ""
  s!"{machine.text}\n{upcoming}"

/-- The trace of an interpretation of `chunk`: the amount of code, and an entry for each
instruction that was started. -/
def Interpretation.trace (chunk : Chunk) (interpretation : Interpretation) : String :=
  s!"Interpreting {chunk.size} bytes of bytecode.\n" ++
    String.join (interpretation.starts.map (traceEntry chunk))

end StackMachine.Machine
