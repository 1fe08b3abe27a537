import StackMachine.Machine.Basic
import StackMachine.Proofs.Decoding

/-!
Contract: the three things that one step of the machine can be.

A step goes on, halts, or faults.  Which of them it is depends on the bytes at the cursor, the
constant pool and the stack, and on nothing else.

Owns:
- `Executes` and `Blocked`, the conditions under which an instruction goes on or faults, stated on
  bytes, pool and stack alone;
- the exact result of a step under each of these conditions, and that no other is possible.

Does not own: sequences of steps.
-/

set_option autoImplicit false

namespace StackMachine

/-! ## Fetch -/

/-- The fault of a machine that fetches where the code does not decode. -/
def DecodeError.fault : DecodeError → Fault
  | .endOfCode _ => .unexpectedEnd
  | .unknownOpcode _ byte => .unknownOpcode byte
  | .missingOperand _ _ => .unexpectedEnd

/-- The offset after the bytes that a fetch at `offset` takes: those of an instruction, or as many
of them as there are. -/
def Chunk.fetchEnd (chunk : Chunk) (offset : Nat) : Nat :=
  match Instruction.decode chunk.code offset with
  | .ok instruction => offset + instruction.operation.size
  | .error (.endOfCode _) => offset
  | .error _ => offset + 1

theorem Chunk.fetchEnd_of_decode
    {chunk : Chunk} {offset : Nat} {instruction : Instruction}
    (decoded : Instruction.decode chunk.code offset = .ok instruction) :
    chunk.fetchEnd offset = offset + instruction.operation.size := by
  simp only [fetchEnd, decoded]

theorem Chunk.le_fetchEnd (chunk : Chunk) (offset : Nat) : offset ≤ chunk.fetchEnd offset := by
  unfold fetchEnd
  split
  · exact Nat.le_add_right _ _
  · exact Nat.le_refl _
  · exact Nat.le_succ _

theorem Chunk.lt_fetchEnd (chunk : Chunk) {offset : Nat} (inside : offset < chunk.size) :
    offset < chunk.fetchEnd offset := by
  unfold fetchEnd
  split
  · rename_i instruction _
    exact Nat.lt_add_of_pos_right instruction.operation.size_pos
  · rename_i decoded
    cases decode_eq_iff.mp decoded with
    | endOfCode past => exact absurd inside (Nat.not_lt.mpr past)
  · exact Nat.lt_succ_self _

theorem Chunk.fetchEnd_le (chunk : Chunk) {offset : Nat} (inCode : offset ≤ chunk.size) :
    chunk.fetchEnd offset ≤ chunk.size := by
  unfold fetchEnd
  cases decoded : Instruction.decode chunk.code offset with
  | ok instruction => exact size_le_of_decode decoded
  | error error =>
      cases decode_eq_iff.mp decoded with
      | endOfCode _ => exact inCode
      | unknownOpcode here _ => exact lt_size_of_getElem? here
      | missingOperand here _ => exact lt_size_of_getElem? here

namespace Machine

theorem run_fetchInstruction (chunk : Chunk) (machine : Machine) :
    (fetchInstruction chunk).run machine =
      match Instruction.decode chunk.code machine.cursor with
      | .ok instruction => .ok instruction { machine with cursor := chunk.fetchEnd machine.cursor }
      | .error error =>
          .error error.fault { machine with cursor := chunk.fetchEnd machine.cursor } := by
  have reads := readsAs_decode chunk.code machine.cursor
  generalize decoded : Instruction.decode chunk.code machine.cursor = outcome at reads
  simp only [fetchInstruction, EStateM.run_bind, run_fetchByte, Chunk.fetchEnd, decoded]
  cases reads with
  | endOfCode past =>
      rw [Array.getElem?_eq_none past]
      rfl
  | unknownOpcode here unknown =>
      obtain ⟨refusal, refused⟩ := (Operation.ofCode_eq_error_iff _).mpr unknown
      simp only [here, refused]
      rfl
  | missingOperand here last =>
      have noOperand : chunk.code[machine.cursor + 1]? = none := Array.getElem?_eq_none (by omega)
      simp only [here, Operation.ofCode_code, Operation.withOperands, EStateM.run_bind,
        run_fetchByte, noOperand]
      rfl
  | constant here operand =>
      simp only [here, Operation.ofCode_code, Operation.withOperands, EStateM.run_bind,
        run_fetchByte, operand]
      rfl
  | negate here =>
      simp only [here, Operation.ofCode_code]
      rfl
  | ret here =>
      simp only [here, Operation.ofCode_code]
      rfl

theorem decode_of_fetchInstruction
    {chunk : Chunk} {machine after : Machine} {instruction : Instruction}
    (fetched : (fetchInstruction chunk).run machine = .ok instruction after) :
    Instruction.decode chunk.code machine.cursor = .ok instruction := by
  rw [run_fetchInstruction] at fetched
  split at fetched
  · rename_i decoded
    cases fetched
    exact decoded
  · cases fetched

theorem run_step_of_decode
    {chunk : Chunk} {machine : Machine} {instruction : Instruction}
    (decoded : Instruction.decode chunk.code machine.cursor = .ok instruction) :
    (step chunk).run machine =
      (execute chunk instruction).run
        { machine with cursor := machine.cursor + instruction.operation.size } := by
  simp only [step, EStateM.run_bind, run_fetchInstruction, decoded,
    Chunk.fetchEnd_of_decode decoded]

theorem run_step_of_decode_error
    {chunk : Chunk} {machine : Machine} {error : DecodeError}
    (decoded : Instruction.decode chunk.code machine.cursor = .error error) :
    (step chunk).run machine =
      .error error.fault { machine with cursor := chunk.fetchEnd machine.cursor } := by
  simp only [step, EStateM.run_bind, run_fetchInstruction, decoded]

end Machine

/-! ## What instructions do to a stack -/

/-- `instruction` turns one stack into another, both with the top first, on a machine that holds at
most `limit` values. -/
inductive Executes (chunk : Chunk) (limit : Nat) :
    Instruction → List Value → List Value → Prop where
  | constant {index : UInt8} {value : Value} {stack : List Value}
      (found : chunk.constant? index = some value)
      (room : stack.length < limit) :
      Executes chunk limit (.constant index) stack (value :: stack)
  | negate {datum : Number} {stack : List Value} :
      Executes chunk limit .negate (.number datum :: stack) (.number (-datum) :: stack)

/-- `instruction` cannot be executed on a stack, and the fault says why.  A constant that the pool
does not hold is refused whether or not there is room for it. -/
inductive Refuses (chunk : Chunk) (limit : Nat) : Instruction → List Value → Fault → Prop where
  | constantIndex {index : UInt8} {stack : List Value}
      (outside : chunk.constants.size ≤ index.toNat) :
      Refuses chunk limit (.constant index) stack (.constantIndex index chunk.constants.size)
  | stackOverflow {index : UInt8} {stack : List Value}
      (inside : index.toNat < chunk.constants.size)
      (full : stack.length = limit) :
      Refuses chunk limit (.constant index) stack (.stackOverflow limit)
  | stackUnderflow :
      Refuses chunk limit .negate [] .stackUnderflow
  | operandKind {value : Value} {stack : List Value}
      (notNumber : value.kind ≠ .number) :
      Refuses chunk limit .negate (value :: stack) (.operandKind .negate value.kind)

/-- What starts at `offset` is no instruction, or one that cannot be executed on `stack`. -/
inductive Blocked (chunk : Chunk) (limit offset : Nat) (stack : List Value) : Fault → Prop where
  | endOfCode (past : chunk.size ≤ offset) :
      Blocked chunk limit offset stack .unexpectedEnd
  | missingOperand
      (here : chunk.code[offset]? = some Operation.constant.code)
      (last : offset + 1 = chunk.size) :
      Blocked chunk limit offset stack .unexpectedEnd
  | unknownOpcode {byte : UInt8}
      (here : chunk.code[offset]? = some byte)
      (unknown : 2 < byte) :
      Blocked chunk limit offset stack (.unknownOpcode byte)
  | refused {instruction : Instruction} {fault : Fault}
      (decoded : Instruction.decode chunk.code offset = .ok instruction)
      (refuses : Refuses chunk limit instruction stack fault) :
      Blocked chunk limit offset stack fault

namespace Machine

/-- The stack holds no more values than it may. -/
def Bounded (machine : Machine) : Prop :=
  machine.stack.length ≤ machine.stackLimit

theorem run_push_of_room {value : Value} {machine : Machine}
    (room : machine.stack.length < machine.stackLimit) :
    (push value).run machine = .ok () { machine with stack := value :: machine.stack } := by
  simp only [push, EStateM.run_bind, EStateM.run_get]
  rw [if_neg (Nat.not_le.mpr room)]
  rfl

theorem run_push_of_full {value : Value} {machine : Machine}
    (full : machine.stackLimit ≤ machine.stack.length) :
    (push value).run machine = .error (.stackOverflow machine.stackLimit) machine := by
  simp only [push, EStateM.run_bind, EStateM.run_get]
  rw [if_pos full]
  rfl

theorem run_pop_cons {value : Value} {rest : List Value} {machine : Machine}
    (stack : machine.stack = value :: rest) :
    pop.run machine = .ok value { machine with stack := rest } := by
  simp only [pop, EStateM.run_bind, EStateM.run_get, stack]
  rfl

theorem run_top_nil {machine : Machine} (stack : machine.stack = []) :
    top.run machine = .error .stackUnderflow machine := by
  simp only [top, EStateM.run_bind, EStateM.run_get, stack]
  rfl

theorem run_top_cons {value : Value} {rest : List Value} {machine : Machine}
    (stack : machine.stack = value :: rest) :
    top.run machine = .ok value machine := by
  simp only [top, EStateM.run_bind, EStateM.run_get, stack]
  rfl

/-- A negation first makes room and then takes it, so it is the values below the operand that have
to be fewer than the limit.  On a stack that is too deep already, the operand is lost. -/
theorem run_execute_negate
    {machine : Machine} {datum : Number} {rest : List Value}
    (chunk : Chunk)
    (stack : machine.stack = .number datum :: rest) :
    (execute chunk .negate).run machine =
      if rest.length < machine.stackLimit then
        .ok .next { machine with stack := .number (-datum) :: rest }
      else
        .error (.stackOverflow machine.stackLimit) { machine with stack := rest } := by
  simp only [execute, EStateM.run_bind, run_top_cons stack]
  rw [if_pos (show (Value.number datum).isNumber = true from rfl), EStateM.run_bind,
    run_pop_cons stack]
  simp only [EStateM.run_bind]
  by_cases room : rest.length < machine.stackLimit
  · rw [if_pos room, run_push_of_room room]
    rfl
  · rw [if_neg room, run_push_of_full (Nat.not_lt.mp room)]

theorem run_execute_of_executes
    {chunk : Chunk} {instruction : Instruction} {machine : Machine} {stack : List Value}
    (bounded : machine.Bounded)
    (executes : Executes chunk machine.stackLimit instruction machine.stack stack) :
    (execute chunk instruction).run machine = .ok .next { machine with stack } := by
  generalize before : machine.stack = start at executes
  cases executes with
  | constant found room =>
      subst before
      simp only [execute, found, EStateM.run_bind, run_push_of_room room]
      rfl
  | @negate datum rest =>
      -- The popped value leaves the room that the pushed one takes.
      have room : rest.length < machine.stackLimit := by
        rw [Bounded, before] at bounded
        exact bounded
      rw [run_execute_negate chunk before, if_pos room]

theorem run_execute_of_refuses
    {chunk : Chunk} {instruction : Instruction} {machine : Machine} {fault : Fault}
    (refuses : Refuses chunk machine.stackLimit instruction machine.stack fault) :
    (execute chunk instruction).run machine = .error fault machine := by
  generalize before : machine.stack = stack at refuses
  cases refuses with
  | constantIndex outside =>
      have missing : chunk.constant? _ = none := Array.getElem?_eq_none outside
      simp only [execute, missing]
      rfl
  | stackOverflow inside full =>
      have found : chunk.constant? _ = some _ := Array.getElem?_eq_getElem inside
      have noRoom : machine.stackLimit ≤ machine.stack.length :=
        Nat.le_of_eq (by rw [before, full])
      simp only [execute, found, EStateM.run_bind, run_push_of_full noRoom]
  | stackUnderflow => simp only [execute, EStateM.run_bind, run_top_nil before]
  | @operandKind value rest notNumber =>
      have refused : ¬ value.isNumber = true := by
        rwa [Value.isNumber_iff_kind]
      simp only [execute, EStateM.run_bind, run_top_cons before, if_neg refused]
      rfl

theorem run_execute_ret (chunk : Chunk) (machine : Machine) :
    (execute chunk .ret).run machine =
      .ok .halt { machine with stack := [], residue := machine.stack.reverse } :=
  rfl

/-! ## The three kinds of step -/

/-- The machine after `instruction` has been executed and has left `stack`. -/
def advance (machine : Machine) (instruction : Instruction) (stack : List Value) : Machine :=
  { machine with cursor := machine.cursor + instruction.operation.size, stack }

theorem step_of_executes
    {chunk : Chunk} {instruction : Instruction} {machine : Machine} {stack : List Value}
    (bounded : machine.Bounded)
    (decoded : Instruction.decode chunk.code machine.cursor = .ok instruction)
    (executes : Executes chunk machine.stackLimit instruction machine.stack stack) :
    (step chunk).run machine = .ok .next (machine.advance instruction stack) := by
  rw [run_step_of_decode decoded]
  exact run_execute_of_executes bounded executes

theorem step_of_ret
    {chunk : Chunk} {machine : Machine}
    (decoded : Instruction.decode chunk.code machine.cursor = .ok .ret) :
    (step chunk).run machine =
      .ok .halt
        { machine with
          cursor := machine.cursor + 1
          stack := []
          residue := machine.stack.reverse } := by
  rw [run_step_of_decode decoded]
  exact run_execute_ret chunk _

/-- A blocked instruction changes nothing but the cursor. -/
theorem step_of_blocked
    {chunk : Chunk} {machine : Machine} {fault : Fault}
    (blocked : Blocked chunk machine.stackLimit machine.cursor machine.stack fault) :
    (step chunk).run machine =
      .error fault { machine with cursor := chunk.fetchEnd machine.cursor } := by
  cases blocked with
  | endOfCode past => exact run_step_of_decode_error (ReadsAs.endOfCode past).decode_eq
  | missingOperand here last =>
      exact run_step_of_decode_error (ReadsAs.missingOperand here last).decode_eq
  | unknownOpcode here unknown =>
      exact run_step_of_decode_error (ReadsAs.unknownOpcode here unknown).decode_eq
  | refused decoded refuses =>
      rw [run_step_of_decode decoded, Chunk.fetchEnd_of_decode decoded]
      exact run_execute_of_refuses refuses

/-- Every instruction but `Return` is executed or refused while the stack is bounded. -/
theorem executes_or_refuses
    (chunk : Chunk) {limit : Nat} {instruction : Instruction} {stack : List Value}
    (bounded : stack.length ≤ limit)
    (notReturn : instruction ≠ .ret) :
    (∃ after, Executes chunk limit instruction stack after) ∨
      ∃ fault, Refuses chunk limit instruction stack fault := by
  cases instruction with
  | constant index =>
      by_cases inside : index.toNat < chunk.constants.size
      · by_cases room : stack.length < limit
        · exact .inl ⟨_, .constant (Array.getElem?_eq_getElem inside) room⟩
        · exact .inr ⟨_, .stackOverflow inside (by omega)⟩
      · exact .inr ⟨_, .constantIndex (Nat.not_lt.mp inside)⟩
  | negate =>
      cases stack with
      | nil => exact .inr ⟨_, .stackUnderflow⟩
      | cons value rest =>
          cases value with
          | number datum => exact .inl ⟨_, .negate⟩
          | bool truth => exact .inr ⟨_, .operandKind (by simp [Value.kind])⟩
          | nil => exact .inr ⟨_, .operandKind (by simp [Value.kind])⟩
  | ret => contradiction

/-- The machine stands at a `Return` or is blocked, so that its next step is its last. -/
def Ends (chunk : Chunk) (machine : Machine) : Prop :=
  Instruction.decode chunk.code machine.cursor = .ok .ret ∨
    ∃ fault, Blocked chunk machine.stackLimit machine.cursor machine.stack fault

/-- A bounded machine can execute an instruction and go on, or else its next step is its last. -/
theorem executes_or_ends {machine : Machine} (chunk : Chunk) (bounded : machine.Bounded) :
    (∃ instruction stack,
      Instruction.decode chunk.code machine.cursor = .ok instruction ∧
        Executes chunk machine.stackLimit instruction machine.stack stack) ∨
      machine.Ends chunk := by
  cases decoded : Instruction.decode chunk.code machine.cursor with
  | error error =>
      right
      right
      cases decode_eq_iff.mp decoded with
      | endOfCode past => exact ⟨_, .endOfCode past⟩
      | unknownOpcode here unknown => exact ⟨_, .unknownOpcode here unknown⟩
      | missingOperand here last => exact ⟨_, .missingOperand here last⟩
  | ok instruction =>
      by_cases isReturn : instruction = .ret
      · subst isReturn
        exact .inr (.inl decoded)
      · rcases executes_or_refuses chunk bounded isReturn with
          ⟨stack, executes⟩ | ⟨fault, refuses⟩
        · exact .inl ⟨instruction, stack, rfl, executes⟩
        · exact .inr (.inr ⟨fault, .refused decoded refuses⟩)

end Machine

/-- At most one fault applies at a place. -/
theorem Blocked.unique
    {chunk : Chunk} {limit offset : Nat} {stack : List Value} {fault other : Fault}
    (blocked : Blocked chunk limit offset stack fault)
    (alsoBlocked : Blocked chunk limit offset stack other) :
    fault = other := by
  let machine : Machine := { cursor := offset, stack, stackLimit := limit }
  have stepped := @Machine.step_of_blocked chunk machine fault blocked
  rw [@Machine.step_of_blocked chunk machine other alsoBlocked] at stepped
  injection stepped with same
  exact same.symm

end StackMachine
