import StackMachine.Machine.Trace

/-!
Contract: a small program that shows the machine at work.

Owns: the program and the text of its listing and run.
Does not own: input and output.
-/

set_option autoImplicit false

namespace StackMachine.Demo

/-- The binary64 number nearest to 1.2. -/
def oneAndAFifth : Number :=
  .ofBits 0x3ff3333333333333

/-- Loads a number, negates it and returns, all on one line of source. -/
def program : Chunk :=
  let line := 123
  let (pool, index) := (∅ : Chunk).addConstant (.number oneAndAFifth)
  pool.writeInstruction (.constant (.ofNat index)) line
    |>.writeOperation .negate line
    |>.writeOperation .ret line

def interpretation : Machine.Interpretation :=
  ({ } : Machine).interpret program

/-- An announcement, the listing of the program, and the trace of its run. -/
def transcript : String :=
  let listing := (program.disassemble "test chunk").text
  s!"Computation Tracing ENABLED\n{listing}\n{interpretation.trace program}"

end StackMachine.Demo
