import StackMachine.Chunk
import StackMachine.Instruction.Decode
import StackMachine.Machine.Fault

/-!
Contract: the machine and its single step.

Owns:
- the machine's state: cursor, bounded stack, and the values left by the last `Return`;
- the stack operations and the fetch of bytes, each with its own fault;
- fetching, executing and stepping one instruction, and how far each moves the cursor.

A fault keeps the state that was reached, since the cursor has passed the bytes fetched so far.

Does not own: the dispatch loop, or the text of a machine.
-/

set_option autoImplicit false

namespace StackMachine

/-- The number of values that a machine's stack holds unless it is made otherwise. -/
def defaultStackLimit : Nat := 256

structure Machine where
  /-- The offset of the next byte to fetch. -/
  cursor : Nat := 0
  /-- The operands awaiting use, the top one first. -/
  stack : List Value := []
  stackLimit : Nat := defaultStackLimit
  /-- The values that the last `Return` discarded, the bottom one first. -/
  residue : List Value := []
deriving DecidableEq, Repr

namespace Machine

/-- An action on the machine that may end in a fault. -/
abbrev Action (α : Type) : Type :=
  EStateM Fault Machine α

/-- What follows an instruction. -/
inductive Flow where
  | next
  | halt
deriving DecidableEq, Repr

/-! ## Stack -/

def push (value : Value) : Action Unit := do
  let machine ← get
  if machine.stackLimit ≤ machine.stack.length then
    throw (.stackOverflow machine.stackLimit)
  else
    set { machine with stack := value :: machine.stack }

/-- Takes the top value off the stack. -/
def pop : Action Value := do
  let machine ← get
  match machine.stack with
  | [] => throw .stackUnderflow
  | value :: rest =>
      set { machine with stack := rest }
      return value

/-- The top value, left in place. -/
def top : Action Value := do
  let machine ← get
  match machine.stack with
  | [] => throw .stackUnderflow
  | value :: _ => return value

/-! ## Fetch -/

/-- The byte at the cursor, which moves past it. -/
def fetchByte (chunk : Chunk) : Action UInt8 := do
  let machine ← get
  match chunk.code[machine.cursor]? with
  | none => throw .unexpectedEnd
  | some byte =>
      set { machine with cursor := machine.cursor + 1 }
      return byte

/-- The instruction at the cursor, which moves past all its bytes. -/
def fetchInstruction (chunk : Chunk) : Action Instruction := do
  let byte ← fetchByte chunk
  match Operation.ofCode byte with
  | .error _ => throw (.unknownOpcode byte)
  | .ok operation => operation.withOperands (fetchByte chunk)

/-! ## Execution -/

def execute (chunk : Chunk) : Instruction → Action Flow
  | .constant index =>
      match chunk.constant? index with
      | none => throw (.constantIndex index chunk.constants.size)
      | some value => do
          push value
          return .next
  | .negate => do
      let operand ← top
      if operand.isNumber then
        match ← pop with
        | .number datum =>
            push (.number (-datum))
            return .next
        | _ => return .next
      else
        throw (.operandKind .negate operand.kind)
  | .ret => do
      modify fun machine => { machine with stack := [], residue := machine.stack.reverse }
      return .halt

/-- Fetches and executes the instruction at the cursor. -/
def step (chunk : Chunk) : Action Flow := do
  let instruction ← fetchInstruction chunk
  execute chunk instruction

/-! ## Cursor -/

theorem run_fetchByte (chunk : Chunk) (machine : Machine) :
    (fetchByte chunk).run machine =
      match chunk.code[machine.cursor]? with
      | none => .error .unexpectedEnd machine
      | some byte => .ok byte { machine with cursor := machine.cursor + 1 } := by
  simp only [fetchByte, EStateM.run_bind, EStateM.run_get]
  split <;> rfl

/-- A fetched byte moves the cursor by one, inside the code. -/
theorem fetchByte_cursor
    {chunk : Chunk}
    {machine after : Machine}
    {byte : UInt8}
    (fetched : (fetchByte chunk).run machine = .ok byte after) :
    after = { machine with cursor := machine.cursor + 1 } ∧ after.cursor ≤ chunk.size := by
  rw [run_fetchByte] at fetched
  split at fetched
  · cases fetched
  · rename_i found
    cases fetched
    obtain ⟨inside, _⟩ := Array.getElem?_eq_some_iff.mp found
    exact ⟨rfl, inside⟩

/-- A fetched instruction moves the cursor by its size, inside the code, and changes nothing
else. -/
theorem fetchInstruction_cursor
    {chunk : Chunk}
    {machine after : Machine}
    {instruction : Instruction}
    (fetched : (fetchInstruction chunk).run machine = .ok instruction after) :
    after = { machine with cursor := machine.cursor + instruction.operation.size } ∧
      after.cursor ≤ chunk.size := by
  simp only [fetchInstruction, EStateM.run_bind] at fetched
  split at fetched
  · rename_i byte middle fetchedByte
    obtain ⟨rfl, middleLe⟩ := fetchByte_cursor fetchedByte
    split at fetched
    · cases fetched
    · rename_i operation _
      cases operation with
      | constant =>
          simp only [Operation.withOperands, EStateM.run_bind] at fetched
          split at fetched
          · rename_i operand last fetchedOperand
            obtain ⟨rfl, lastLe⟩ := fetchByte_cursor fetchedOperand
            cases fetched
            exact ⟨rfl, lastLe⟩
          · cases fetched
      | negate =>
          cases fetched
          exact ⟨rfl, middleLe⟩
      | ret =>
          cases fetched
          exact ⟨rfl, middleLe⟩
  · cases fetched

theorem push_cursor
    {value : Value}
    {machine after : Machine}
    (pushed : (push value).run machine = .ok () after) :
    after.cursor = machine.cursor := by
  simp only [push, EStateM.run_bind, EStateM.run_get] at pushed
  split at pushed
  · cases pushed
  · cases pushed
    rfl

theorem pop_cursor
    {value : Value}
    {machine after : Machine}
    (popped : pop.run machine = .ok value after) :
    after.cursor = machine.cursor := by
  simp only [pop, EStateM.run_bind, EStateM.run_get] at popped
  split at popped
  · cases popped
  · cases popped
    rfl

theorem top_unchanged
    {value : Value}
    {machine after : Machine}
    (seen : top.run machine = .ok value after) :
    after = machine := by
  simp only [top, EStateM.run_bind, EStateM.run_get] at seen
  split at seen
  · cases seen
  · cases seen
    rfl

/-- Execution leaves the cursor where the fetch has moved it. -/
theorem execute_cursor
    {chunk : Chunk}
    {instruction : Instruction}
    {machine after : Machine}
    {flow : Flow}
    (executed : (execute chunk instruction).run machine = .ok flow after) :
    after.cursor = machine.cursor := by
  cases instruction with
  | constant index =>
      simp only [execute] at executed
      split at executed
      · cases executed
      · simp only [EStateM.run_bind] at executed
        split at executed
        · rename_i pushed
          cases executed
          exact push_cursor pushed
        · cases executed
  | negate =>
      simp only [execute, EStateM.run_bind] at executed
      split at executed
      · rename_i seen
        cases top_unchanged seen
        split at executed
        · rw [EStateM.run_bind] at executed
          split at executed
          · rename_i popped
            split at executed
            · rw [EStateM.run_bind] at executed
              split at executed
              · rename_i pushed
                cases executed
                exact (push_cursor pushed).trans (pop_cursor popped)
              · cases executed
            · cases executed
              exact pop_cursor popped
          · cases executed
        · cases executed
      · cases executed
  | ret =>
      cases executed
      rfl

/-- A step that does not fault moves the cursor forward and not past the end of the code. -/
theorem step_cursor
    {chunk : Chunk}
    {machine after : Machine}
    {flow : Flow}
    (stepped : (step chunk).run machine = .ok flow after) :
    machine.cursor < after.cursor ∧ after.cursor ≤ chunk.size := by
  simp only [step, EStateM.run_bind] at stepped
  split at stepped
  · rename_i instruction fetchedMachine fetched
    obtain ⟨moved, fetchedLe⟩ := fetchInstruction_cursor fetched
    have sameCursor := execute_cursor stepped
    have movedCursor :
        fetchedMachine.cursor = machine.cursor + instruction.operation.size := by
      rw [moved]
    have sizePos := instruction.operation.size_pos
    omega
  · cases stepped

end Machine

end StackMachine
