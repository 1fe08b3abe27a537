import StackMachine.Proofs.Decoding

/-!
Contract: an instruction and its bytes determine each other, in any surroundings.

An operand can be any byte, those that stand for operations among them.  What keeps code readable is
that the first byte of an instruction tells how many follow it.

Owns:
- the decoding of an encoding that stands anywhere in code, and the bytes that a decoded instruction
  was read from;
- `assemble`, the bytes of a list of instructions, and that the list can be told from its bytes.

Does not own: code that does not decode.
-/

set_option autoImplicit false

namespace StackMachine.Instruction

/-! ## One instruction -/

/-- An encoding is decoded whatever stands before it and after it. -/
theorem decode_append_bytes_append
    (before after : List UInt8)
    (instruction : Instruction) :
    decode (before ++ instruction.encode.bytes ++ after).toArray before.length =
      .ok instruction := by
  apply decode_of_drop
  rw [List.append_assoc, List.drop_left]

/-- An instruction is decoded exactly where all its bytes stand. -/
theorem decode_eq_ok_iff (code : Array UInt8) (offset : Nat) (instruction : Instruction) :
    decode code offset = .ok instruction ↔
      offset + instruction.operation.size ≤ code.size ∧
        (code.extract offset (offset + instruction.operation.size)).toList =
          instruction.encode.bytes := by
  have bytesLength : instruction.encode.bytes.length = instruction.operation.size := by
    rw [Encoding.length_bytes, size_encode]
  have extracted :
      (code.extract offset (offset + instruction.operation.size)).toList =
        (code.toList.drop offset).take instruction.operation.size := by
    rw [Array.toList_extract, List.extract_eq_take_drop, Nat.add_sub_cancel_left]
  rw [extracted]
  constructor
  · intro decoded
    refine ⟨size_le_of_decode decoded, ?_⟩
    rw [drop_of_decode decoded, ← bytesLength, List.take_left]
  · intro stands
    obtain ⟨_, bytes⟩ := stands
    apply decode_of_drop
    rw [← bytes]
    exact (List.take_append_drop ..).symm

theorem bytes_encode_ne_nil (instruction : Instruction) : instruction.encode.bytes ≠ [] := by
  cases instruction <;> exact List.cons_ne_nil _ _

/-! ## Lists of instructions -/

/-- The bytes of instructions, one instruction after the other. -/
def assemble (instructions : List Instruction) : List UInt8 :=
  instructions.flatMap fun instruction => instruction.encode.bytes

@[simp] theorem assemble_nil : assemble [] = [] :=
  rfl

@[simp] theorem assemble_cons (instruction : Instruction) (rest : List Instruction) :
    assemble (instruction :: rest) = instruction.encode.bytes ++ assemble rest :=
  rfl

/-- The first of several instructions is decoded at the start of their bytes. -/
theorem decode_assemble_cons (instruction : Instruction) (rest : List Instruction) :
    decode (assemble (instruction :: rest)).toArray 0 = .ok instruction :=
  decode_append_bytes_append [] (assemble rest) instruction

theorem assemble_injective : Function.Injective assemble := by
  intro left right sameBytes
  induction left generalizing right with
  | nil =>
      cases right with
      | nil => rfl
      | cons instruction rest =>
          rw [assemble_nil, assemble_cons] at sameBytes
          have empty := List.append_eq_nil_iff.mp sameBytes.symm
          exact absurd empty.1 instruction.bytes_encode_ne_nil
  | cons first others inductionHypothesis =>
      cases right with
      | nil =>
          rw [assemble_nil, assemble_cons] at sameBytes
          have empty := List.append_eq_nil_iff.mp sameBytes
          exact absurd empty.1 first.bytes_encode_ne_nil
      | cons instruction rest =>
          -- Both lists start with what is decoded at the start of the common bytes.
          have decoded := decode_assemble_cons first others
          rw [sameBytes, decode_assemble_cons] at decoded
          cases decoded
          rw [assemble_cons, assemble_cons] at sameBytes
          rw [inductionHypothesis (List.append_cancel_left sameBytes)]

/-- Encoding and decoding undo each other.  An encoding is decoded in any surroundings; a decoded
instruction has as many bytes in the code as its operation and its encoding announce, and they are its
encoding; and instructions in a row are determined by their bytes together. -/
theorem encode_and_decode_invert :
    (∀ (before after : List UInt8) (instruction : Instruction),
      decode (before ++ instruction.encode.bytes ++ after).toArray before.length =
        .ok instruction) ∧
    (∀ (code : Array UInt8) (offset : Nat) (instruction : Instruction),
      decode code offset = .ok instruction ↔
        offset + instruction.operation.size ≤ code.size ∧
          (code.extract offset (offset + instruction.operation.size)).toList =
            instruction.encode.bytes) ∧
    (∀ instruction : Instruction, instruction.encode.size = instruction.operation.size) ∧
    ∀ left right : List Instruction,
      assemble left = assemble right ↔ left = right := by
  refine ⟨decode_append_bytes_append, decode_eq_ok_iff, size_encode, ?_⟩
  intro left right
  exact assemble_injective.eq_iff

end StackMachine.Instruction
