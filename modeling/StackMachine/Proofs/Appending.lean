import StackMachine.Proofs.Edits
import StackMachine.Proofs.Faults

/-!
Contract: interpretations do not depend on what is appended behind the place where they end.

A run reads bytes and constants that are there, and appending changes none of them.  Only two faults
look beyond: the end of the code, which may move on, and the size of the pool, which may grow.

Owns:
- that decoding, execution and walks carry over to every chunk that extends theirs;
- `Fault.Persists`, the condition under which a fault does, and the same for whole interpretations.

Does not own: what is appended.
-/

set_option autoImplicit false

namespace StackMachine

/-- Growth of a chunk from `before` to `after` takes nothing away from the fault.  A missing
constant may be added, and so may missing code; every other fault is about what is there. -/
def Fault.Persists (before after : Chunk) : Fault → Prop
  | .constantIndex _ _ => after.constants = before.constants
  | .unexpectedEnd => after.code = before.code
  | .unknownOpcode _ => True
  | .stackUnderflow => True
  | .stackOverflow _ => True
  | .operandKind _ _ => True

namespace Chunk.ExtendsTo

variable {before after : Chunk}

/-! ## Code and pool -/

theorem decode_eq
    {offset : Nat} {instruction : Instruction}
    (extended : before.ExtendsTo after)
    (decoded : Instruction.decode before.code offset = .ok instruction) :
    Instruction.decode after.code offset = .ok instruction := by
  apply ReadsAs.decode_eq
  cases decode_eq_iff.mp decoded with
  | constant here operand =>
      exact .constant (getElem?_of_isPrefix extended.code here)
        (getElem?_of_isPrefix extended.code operand)
  | negate here => exact .negate (getElem?_of_isPrefix extended.code here)
  | ret here => exact .ret (getElem?_of_isPrefix extended.code here)

theorem executes
    {limit : Nat} {instruction : Instruction} {stack result : List Value}
    (extended : before.ExtendsTo after)
    (executed : Executes before limit instruction stack result) :
    Executes after limit instruction stack result := by
  cases executed with
  | constant found room => exact .constant (extended.constant?_eq found) room
  | negate => exact .negate

theorem refuses
    {limit : Nat} {instruction : Instruction} {stack : List Value} {fault : Fault}
    (extended : before.ExtendsTo after)
    (persists : fault.Persists before after)
    (refused : Refuses before limit instruction stack fault) :
    Refuses after limit instruction stack fault := by
  cases refused with
  | constantIndex outside =>
      have samePool : after.constants = before.constants := persists
      rw [← samePool] at outside ⊢
      exact .constantIndex outside
  | stackOverflow inside full =>
      have poolLe := extended.constants.length_le
      rw [Array.length_toList, Array.length_toList] at poolLe
      exact .stackOverflow (Nat.lt_of_lt_of_le inside poolLe) full
  | stackUnderflow => exact .stackUnderflow
  | operandKind notNumber => exact .operandKind notNumber

/-- A place that is blocked stays blocked, by the same fault. -/
theorem blocked
    {limit offset : Nat} {stack : List Value} {fault : Fault}
    (extended : before.ExtendsTo after)
    (persists : fault.Persists before after)
    (stuck : Blocked before limit offset stack fault) :
    Blocked after limit offset stack fault := by
  cases stuck with
  | endOfCode past =>
      have sameCode : after.code = before.code := persists
      apply Blocked.endOfCode
      rwa [size, sameCode]
  | missingOperand here last =>
      have sameCode : after.code = before.code := persists
      apply Blocked.missingOperand
      · rwa [sameCode]
      · rwa [size, sameCode]
  | unknownOpcode here unknown =>
      exact .unknownOpcode (getElem?_of_isPrefix extended.code here) unknown
  | refused decoded refusal =>
      exact .refused (extended.decode_eq decoded) (extended.refuses persists refusal)

/-! ## Places -/

/-- A fault that persists is found inside the code, or no code has been added. -/
theorem inside_or_sameCode
    {limit offset : Nat} {stack : List Value} {fault : Fault}
    (persists : fault.Persists before after)
    (stuck : Blocked before limit offset stack fault) :
    offset < before.size ∨ after.code = before.code := by
  cases stuck with
  | endOfCode past => exact .inr persists
  | missingOperand here last => exact .inr persists
  | unknownOpcode here unknown => exact .inl (lt_size_of_getElem? here)
  | @refused instruction _ decoded _ =>
      left
      have fits : _ ≤ before.size := size_le_of_decode decoded
      have sizePos := instruction.operation.size_pos
      omega

theorem locate_eq
    {limit offset : Nat} {stack : List Value} {fault : Fault}
    (extended : before.ExtendsTo after)
    (persists : fault.Persists before after)
    (stuck : Blocked before limit offset stack fault) :
    after.locate offset fault = before.locate offset fault := by
  rcases inside_or_sameCode persists stuck with inside | sameCode
  · have insideAfter : offset < after.size := Nat.lt_of_lt_of_le inside extended.size_le
    have sameLine : (after.locate offset fault).line = (before.locate offset fault).line := by
      rw [after.locate_line_inside offset fault insideAfter,
        before.locate_line_inside offset fault inside, extended.line?_eq inside]
    exact congrArg (RuntimeError.mk fault offset) sameLine
  · simp only [locate, line?, extended.lines_eq sameCode]

theorem fetchEnd_eq
    {limit offset : Nat} {stack : List Value} {fault : Fault}
    (extended : before.ExtendsTo after)
    (persists : fault.Persists before after)
    (stuck : Blocked before limit offset stack fault) :
    after.fetchEnd offset = before.fetchEnd offset := by
  have sameDecoding :
      Instruction.decode after.code offset = Instruction.decode before.code offset := by
    cases stuck with
    | endOfCode past => rw [show after.code = before.code from persists]
    | missingOperand here last => rw [show after.code = before.code from persists]
    | unknownOpcode here unknown =>
        rw [(ReadsAs.unknownOpcode here unknown).decode_eq]
        exact (ReadsAs.unknownOpcode (getElem?_of_isPrefix extended.code here) unknown).decode_eq
    | refused decoded _ => rw [decoded, extended.decode_eq decoded]
  simp only [fetchEnd, sameDecoding]

end Chunk.ExtendsTo

/-! ## What the two exceptions show -/

theorem Blocked.poolSize_eq
    {chunk : Chunk} {limit offset poolSize : Nat} {stack : List Value} {index : UInt8}
    (blocked : Blocked chunk limit offset stack (.constantIndex index poolSize)) :
    poolSize = chunk.constants.size := by
  cases blocked with
  | refused _ refusal =>
      cases refusal with
      | constantIndex _ => rfl

theorem Blocked.fetchEnd_eq_size
    {chunk : Chunk} {limit offset : Nat} {stack : List Value}
    (blocked : Blocked chunk limit offset stack .unexpectedEnd)
    (inCode : offset ≤ chunk.size) :
    chunk.fetchEnd offset = chunk.size := by
  cases blocked with
  | endOfCode past =>
      rw [Chunk.fetchEnd, (ReadsAs.endOfCode past).decode_eq]
      exact Nat.le_antisymm inCode past
  | missingOperand here last =>
      rw [Chunk.fetchEnd, (ReadsAs.missingOperand here last).decode_eq]
      exact last
  | refused _ refusal => cases refusal

namespace Machine

/-! ## Runs -/

theorem Walk.of_extendsTo
    {before after : Chunk} {first last : Machine} {steps : List (Machine × Instruction)}
    (walk : Walk before first steps last)
    (extended : before.ExtendsTo after) :
    Walk after first steps last := by
  induction walk with
  | nil machine => exact .nil machine
  | cons decoded executed _ inductionHypothesis =>
      exact .cons (extended.decode_eq decoded) (extended.executes executed) inductionHypothesis

/-- An interpretation is the same on every chunk that extends its own, unless it ends in a fault
that the growth of the chunk may take away. -/
theorem interpret_of_extendsTo
    {before after : Chunk}
    (machine : Machine)
    (extended : before.ExtendsTo after)
    (persists : ∀ error, (machine.interpret before).result = .error (.runtime error) →
      error.fault.Persists before after) :
    machine.interpret after = machine.interpret before := by
  obtain ⟨steps, last, walk, ended⟩ := exists_walk_to_end before machine.bounded_reset
  have sameWalk := walk.of_extendsTo extended
  rcases ended with decoded | ⟨fault, blocked⟩
  · rw [interpret_of_ret walk decoded]
    exact interpret_of_ret sameWalk (extended.decode_eq decoded)
  · have interpreted := interpret_of_blocked walk blocked
    have faultPersists : fault.Persists before after := by
      apply persists (before.locate last.cursor fault)
      rw [interpreted]
    rw [interpreted, interpret_of_blocked sameWalk (extended.blocked faultPersists blocked),
      extended.locate_eq faultPersists blocked, extended.fetchEnd_eq faultPersists blocked]

/-- Conversely, a fault that has not persisted shows in the interpretation: the cursor has gone on to
the new end of the code, or the reported size of the pool is the new one. -/
theorem persists_of_interpret_eq
    {before after : Chunk} {machine : Machine} {error : RuntimeError}
    (extended : before.ExtendsTo after)
    (same : machine.interpret after = machine.interpret before)
    (failed : (machine.interpret before).result = .error (.runtime error)) :
    error.fault.Persists before after := by
  obtain ⟨_, last, walk, blocked, _, cursor⟩ := exists_blocked_of_interpret failed
  rw [← same] at failed
  obtain ⟨_, lastAfter, walkAfter, blockedAfter, _, cursorAfter⟩ :=
    exists_blocked_of_interpret failed
  cases fault : error.fault with
  | constantIndex index poolSize =>
      rw [fault] at blocked blockedAfter
      have samePool : before.constants.size = after.constants.size :=
        blocked.poolSize_eq.symm.trans blockedAfter.poolSize_eq
      exact extended.constants_eq samePool.symm
  | unexpectedEnd =>
      rw [fault] at blocked blockedAfter
      have atEnd := blocked.fetchEnd_eq_size (walk.decodes.le_size (Nat.zero_le _))
      have atEndAfter := blockedAfter.fetchEnd_eq_size (walkAfter.decodes.le_size (Nat.zero_le _))
      apply extended.code_eq
      rw [← atEnd, ← atEndAfter, ← cursor, ← cursorAfter, same]
  | unknownOpcode byte => trivial
  | stackUnderflow => trivial
  | stackOverflow limit => trivial
  | operandKind operation found => trivial

/-- Calls that append to a chunk leave its interpretation as it was, with its result, the machine
after it and every state in between, exactly when it does not end in a fault that the calls may take
away. -/
theorem interpret_replay_eq_iff (machine : Machine) (chunk : Chunk) (edits : List Edit) :
    machine.interpret (chunk.replay edits) = machine.interpret chunk ↔
      ∀ error, (machine.interpret chunk).result = .error (.runtime error) →
        error.fault.Persists chunk (chunk.replay edits) := by
  have extended := chunk.extendsTo_replay edits
  constructor
  · intro same error failed
    exact persists_of_interpret_eq extended same failed
  · exact interpret_of_extendsTo machine extended

end Machine

end StackMachine
