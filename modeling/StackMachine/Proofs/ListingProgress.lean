import StackMachine.Proofs.Tiling

/-!
Contract: how far each listing takes the disassembly, and the end of every disassembly.

The place of the next listing is computed in three ways: by the size of an instruction, by one byte
for an unknown opcode, and by a jump to the end of the code for an operation without its operand.
The first is not checked against the end, and the last need not be a single byte by itself.  Both
are in order because of what decoding has found at the offset.

Owns:
- `PassesOver`, the place that follows an offset, inside the code or past its end;
- `ListsFrom`, the disassembly as its listings make it, with no bound on their number, and its
  agreement with the listings of a chunk.

Does not own: the bytes that a listing stands for.
-/

set_option autoImplicit false

namespace StackMachine.Chunk

/-! ## One listing -/

/-- What follows the listing at `offset` starts further on, by the size of what is listed, and not
past the end of the code. -/
structure PassesOver (chunk : Chunk) (offset : Nat) : Prop where
  next_le : chunk.nextOffset offset ≤ chunk.size
  further_iff : offset < chunk.nextOffset offset ↔ offset < chunk.size
  next_of_outside : chunk.size ≤ offset → chunk.nextOffset offset = chunk.size
  next_of_instruction : ∀ instruction, (chunk.listingAt offset).decoded = .ok instruction →
    chunk.nextOffset offset = offset + instruction.operation.size
  /-- A byte that does not decode is passed over alone, whatever the reason. -/
  next_of_error : offset < chunk.size →
    ∀ error, (chunk.listingAt offset).decoded = .error error → chunk.nextOffset offset = offset + 1

theorem nextOffset_of_le (chunk : Chunk) {offset : Nat} (outside : chunk.size ≤ offset) :
    chunk.nextOffset offset = chunk.size := by
  rw [nextOffset, (ReadsAs.endOfCode outside).decode_eq]

theorem nextOffset_of_decode_error
    {chunk : Chunk} {offset : Nat} {error : DecodeError}
    (inside : offset < chunk.size)
    (decoded : Instruction.decode chunk.code offset = .error error) :
    chunk.nextOffset offset = offset + 1 := by
  rw [nextOffset, decoded]
  cases decode_eq_iff.mp decoded with
  | endOfCode past => exact absurd inside (Nat.not_lt.mpr past)
  | unknownOpcode _ _ => rfl
  | missingOperand _ last => exact last.symm

theorem passesOver (chunk : Chunk) (offset : Nat) : chunk.PassesOver offset := by
  have outsideNext : chunk.size ≤ offset → chunk.nextOffset offset = chunk.size :=
    chunk.nextOffset_of_le
  refine
    { next_le := ?_, further_iff := ?_, next_of_outside := outsideNext,
      next_of_instruction := fun _ => nextOffset_of_decode,
      next_of_error := fun inside _ => nextOffset_of_decode_error inside }
  · by_cases inside : offset < chunk.size
    · exact chunk.nextOffset_le inside
    · exact Nat.le_of_eq (outsideNext (Nat.not_lt.mp inside))
  · constructor
    · intro further
      by_contra outside
      have next := outsideNext (Nat.not_lt.mp outside)
      omega
    · exact chunk.lt_nextOffset

/-! ## All listings -/

/-- The disassembly from `offset` on comes to an end and has then given the listings.  It is the
places of the listings that decide: one that stayed where it is would give no list at all. -/
inductive ListsFrom (chunk : Chunk) : Nat → List Listing → Prop where
  | done {offset : Nat} (outside : chunk.size ≤ offset) : ListsFrom chunk offset []
  | more {offset : Nat} {listings : List Listing}
      (inside : offset < chunk.size)
      (others : ListsFrom chunk (chunk.nextOffset offset) listings) :
      ListsFrom chunk offset (chunk.listingAt offset :: listings)

/-- The disassembly ends from every offset. -/
theorem listsFrom_listingsFrom (chunk : Chunk) (offset : Nat) :
    ListsFrom chunk offset (chunk.listingsFrom offset) := by
  fun_induction listingsFrom chunk offset with
  | case1 offset inside inductionHypothesis => exact .more inside inductionHypothesis
  | case2 offset outside => exact .done (Nat.not_lt.mp outside)

namespace ListsFrom

variable {chunk : Chunk} {offset : Nat} {listings : List Listing}

theorem eq_listingsFrom (lists : ListsFrom chunk offset listings) :
    listings = chunk.listingsFrom offset := by
  induction lists with
  | done outside => exact (chunk.listingsFrom_of_le outside).symm
  | more inside _ inductionHypothesis =>
      rw [chunk.listingsFrom_of_lt inside, ← inductionHypothesis]

/-- Every listing takes a byte of the code that is ahead. -/
theorem length_le (lists : ListsFrom chunk offset listings) :
    listings.length ≤ chunk.size - offset := by
  induction lists with
  | done _ => exact Nat.zero_le _
  | more inside _ inductionHypothesis =>
      have further := chunk.lt_nextOffset inside
      rw [List.length_cons]
      omega

end ListsFrom

/-- Every offset is passed over, so the disassembly of every chunk ends, and lists no more than its
bytes. -/
theorem disassemble_progresses (chunk : Chunk) (name : String) :
    (∀ offset, chunk.PassesOver offset) ∧
      (∀ listings, ListsFrom chunk 0 listings ↔ listings = (chunk.disassemble name).listings) ∧
      (chunk.disassemble name).listings.length ≤ chunk.size := by
  have lists := chunk.listsFrom_listingsFrom 0
  refine ⟨chunk.passesOver, ?_, lists.length_le⟩
  intro listings
  constructor
  · exact ListsFrom.eq_listingsFrom
  · rintro rfl
    exact lists

end StackMachine.Chunk
