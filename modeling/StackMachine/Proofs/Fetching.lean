import StackMachine.Proofs.Step
import StackMachine.Proofs.Tiling

/-!
Contract: the machine's fetch and the reading of listings see the same instruction everywhere.

A fetch moves the cursor byte by byte and stops where it fails; decoding looks at an offset and moves
nothing.  They agree at every offset, inside the code or past its end.  Where both succeed the cursor
comes to rest at the next listing; where both fail it has passed the bytes that were there to fetch.

Owns: the agreement of both readers, in what they read, in the reason of a failure and in where they
leave off.
Does not own: the execution of what was fetched.
-/

set_option autoImplicit false

namespace StackMachine

namespace Machine

theorem run_fetchInstruction_eq_ok_iff
    (chunk : Chunk) (machine after : Machine) (instruction : Instruction) :
    (fetchInstruction chunk).run machine = .ok instruction after ↔
      Instruction.decode chunk.code machine.cursor = .ok instruction ∧
        after = { machine with cursor := machine.cursor + instruction.operation.size } := by
  constructor
  · intro fetched
    exact ⟨decode_of_fetchInstruction fetched, (fetchInstruction_cursor fetched).1⟩
  · rintro ⟨decoded, rfl⟩
    simp only [run_fetchInstruction, decoded, Chunk.fetchEnd_of_decode decoded]

theorem run_fetchInstruction_eq_error_iff
    (chunk : Chunk) (machine after : Machine) (fault : Fault) :
    (fetchInstruction chunk).run machine = .error fault after ↔
      ∃ error, Instruction.decode chunk.code machine.cursor = .error error ∧
        fault = error.fault ∧ after = { machine with cursor := chunk.fetchEnd machine.cursor } := by
  rw [run_fetchInstruction]
  constructor
  · intro fetched
    split at fetched
    · cases fetched
    · rename_i error decoded
      cases fetched
      exact ⟨error, decoded, rfl, rfl⟩
  · rintro ⟨error, decoded, rfl, rfl⟩
    simp only [decoded]

/-- Fetching at the cursor and decoding there agree, whatever the code and wherever the cursor.  They
succeed with the same instruction, and the cursor then stands after all its bytes, where the next
listing starts.  They fail for the same reason: at the end of the code the cursor stays, and behind an
operation without operand or an unknown byte it has moved by one.  Nothing else of the machine
changes. -/
theorem fetchInstruction_agrees_with_decode (chunk : Chunk) (machine : Machine) :
    (∀ instruction after,
      (fetchInstruction chunk).run machine = .ok instruction after ↔
        Instruction.decode chunk.code machine.cursor = .ok instruction ∧
          after = { machine with cursor := machine.cursor + instruction.operation.size } ∧
          after.cursor = chunk.nextOffset machine.cursor) ∧
    ∀ fault after,
      (fetchInstruction chunk).run machine = .error fault after ↔
        Instruction.decode chunk.code machine.cursor = .error (.endOfCode machine.cursor) ∧
            fault = .unexpectedEnd ∧ after = machine ∨
          (∃ operation,
            Instruction.decode chunk.code machine.cursor =
                .error (.missingOperand machine.cursor operation) ∧
              fault = .unexpectedEnd ∧ after = { machine with cursor := machine.cursor + 1 } ∧
              after.cursor = chunk.size) ∨
          ∃ byte,
            Instruction.decode chunk.code machine.cursor =
                .error (.unknownOpcode machine.cursor byte) ∧
              fault = .unknownOpcode byte ∧ after = { machine with cursor := machine.cursor + 1 } := by
  constructor
  · intro instruction after
    rw [run_fetchInstruction_eq_ok_iff]
    constructor
    · rintro ⟨decoded, rfl⟩
      exact ⟨decoded, rfl, (Chunk.nextOffset_of_decode decoded).symm⟩
    · rintro ⟨decoded, moved, _⟩
      exact ⟨decoded, moved⟩
  · intro fault after
    rw [run_fetchInstruction_eq_error_iff]
    constructor
    · rintro ⟨error, decoded, rfl, rfl⟩
      rw [Chunk.fetchEnd, decoded]
      cases decode_eq_iff.mp decoded with
      | endOfCode _ => exact .inl ⟨rfl, rfl, rfl⟩
      | missingOperand _ last => exact .inr (.inl ⟨.constant, rfl, rfl, rfl, last⟩)
      | unknownOpcode _ _ => exact .inr (.inr ⟨_, rfl, rfl, rfl⟩)
    · rintro (⟨decoded, rfl, rfl⟩ | ⟨operation, decoded, rfl, rfl, _⟩ | ⟨byte, decoded, rfl, rfl⟩)
      all_goals
        refine ⟨_, decoded, rfl, ?_⟩
        rw [Chunk.fetchEnd, decoded]

end Machine

end StackMachine
