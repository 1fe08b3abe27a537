import StackMachine.Listing
import StackMachine.Proofs.Decoding

/-!
Contract: the listings of a chunk and the bytes they stand for.

Owns:
- `Listing.bytes`, and that the listings of a chunk are its code, cut into pieces without a gap;
- the place of each listing, and which listings a chunk can have at all.

Does not own: the texts of listings.
-/

set_option autoImplicit false

namespace StackMachine

/-- The offset that a decoding error names. -/
def DecodeError.offset : DecodeError → Nat
  | .endOfCode offset => offset
  | .unknownOpcode offset _ => offset
  | .missingOperand offset _ => offset

namespace Listing

/-- The bytes of code that a listing stands for. -/
def bytes (listing : Listing) : List UInt8 :=
  match listing.decoded with
  | .ok instruction => instruction.encode.bytes
  | .error (.unknownOpcode _ byte) => [byte]
  | .error (.missingOperand _ operation) => [operation.code]
  | .error (.endOfCode _) => []

/-- Whether the listing shows an operation whose operand is missing. -/
def lacksOperand (listing : Listing) : Bool :=
  match listing.decoded with
  | .error (.missingOperand _ _) => true
  | _ => false

theorem lacksOperand_of_decoded
    {listing : Listing} {offset : Nat} {operation : Operation}
    (decoded : listing.decoded = .error (.missingOperand offset operation)) :
    listing.lacksOperand = true := by
  rw [lacksOperand, decoded]

end Listing

namespace Chunk

/-! ## One listing -/

/-- A listing inside the code stands for the bytes up to the next one. -/
theorem drop_eq_bytes_append_drop (chunk : Chunk) {offset : Nat} (inside : offset < chunk.size) :
    chunk.code.toList.drop offset =
      (chunk.listingAt offset).bytes ++ chunk.code.toList.drop (chunk.nextOffset offset) := by
  unfold Listing.bytes listingAt nextOffset
  cases decoded : Instruction.decode chunk.code offset with
  | ok instruction => exact drop_of_decode decoded
  | error error =>
      cases decode_eq_iff.mp decoded with
      | endOfCode past => exact absurd inside (Nat.not_lt.mpr past)
      | unknownOpcode here _ => exact drop_of_getElem? here
      | missingOperand here last =>
          simp only [size, ← last]
          exact drop_of_getElem? here

theorem nextOffset_of_decode
    {chunk : Chunk} {offset : Nat} {instruction : Instruction}
    (decoded : Instruction.decode chunk.code offset = .ok instruction) :
    chunk.nextOffset offset = offset + instruction.operation.size := by
  rw [nextOffset, decoded]

theorem nextOffset_le (chunk : Chunk) {offset : Nat} (inside : offset < chunk.size) :
    chunk.nextOffset offset ≤ chunk.size := by
  unfold nextOffset
  cases decoded : Instruction.decode chunk.code offset with
  | ok instruction => exact size_le_of_decode decoded
  | error error =>
      cases decode_eq_iff.mp decoded with
      | endOfCode _ => exact Nat.le_refl _
      | unknownOpcode _ _ => exact inside
      | missingOperand _ _ => exact Nat.le_refl _

theorem nextOffset_eq_add_length (chunk : Chunk) {offset : Nat} (inside : offset < chunk.size) :
    chunk.nextOffset offset = offset + (chunk.listingAt offset).bytes.length := by
  have lengths := congrArg List.length (chunk.drop_eq_bytes_append_drop inside)
  have nextLe := chunk.nextOffset_le inside
  have further := chunk.lt_nextOffset inside
  have codeLength : chunk.code.toList.length = chunk.size := Array.length_toList
  simp only [List.length_append, List.length_drop, codeLength] at lengths
  omega

/-! ## All listings -/

theorem listingsFrom_of_lt (chunk : Chunk) {offset : Nat} (inside : offset < chunk.size) :
    chunk.listingsFrom offset =
      chunk.listingAt offset :: chunk.listingsFrom (chunk.nextOffset offset) := by
  rw [listingsFrom, if_pos inside]

theorem listingsFrom_of_le (chunk : Chunk) {offset : Nat} (outside : chunk.size ≤ offset) :
    chunk.listingsFrom offset = [] := by
  rw [listingsFrom, if_neg (Nat.not_lt.mpr outside)]

theorem flatMap_bytes_listingsFrom (chunk : Chunk) (offset : Nat) :
    (chunk.listingsFrom offset).flatMap Listing.bytes = chunk.code.toList.drop offset := by
  fun_induction listingsFrom chunk offset with
  | case1 offset inside inductionHypothesis =>
      rw [List.flatMap_cons, inductionHypothesis, chunk.drop_eq_bytes_append_drop inside]
  | case2 offset outside =>
      rw [List.flatMap_nil, List.drop_eq_nil_of_le]
      exact Nat.not_lt.mp outside

/-- What follows the first listings is the disassembly from where their bytes end. -/
theorem listingsFrom_append
    (chunk : Chunk) {offset : Nat} {before after : List Listing}
    (split : chunk.listingsFrom offset = before ++ after) :
    after = chunk.listingsFrom (offset + (before.flatMap Listing.bytes).length) := by
  induction before generalizing offset with
  | nil => exact split.symm
  | cons listing before inductionHypothesis =>
      by_cases inside : offset < chunk.size
      · rw [chunk.listingsFrom_of_lt inside, List.cons_append] at split
        injection split with isHead rest
        rw [inductionHypothesis rest, chunk.nextOffset_eq_add_length inside, isHead,
          List.flatMap_cons, List.length_append, Nat.add_assoc]
      · rw [chunk.listingsFrom_of_le (Nat.not_lt.mp inside)] at split
        cases split

/-- Each listing of a disassembly is the one at the place where the bytes of those before it end. -/
theorem listing_of_split
    (chunk : Chunk) {offset : Nat} {before after : List Listing} {listing : Listing}
    (split : chunk.listingsFrom offset = before ++ listing :: after) :
    let place := offset + (before.flatMap Listing.bytes).length
    place < chunk.size ∧ listing = chunk.listingAt place ∧
      after = chunk.listingsFrom (chunk.nextOffset place) := by
  intro place
  have rest := chunk.listingsFrom_append split
  by_cases inside : place < chunk.size
  · rw [chunk.listingsFrom_of_lt inside] at rest
    injection rest with isHead isTail
    exact ⟨inside, isHead, isTail⟩
  · rw [chunk.listingsFrom_of_le (Nat.not_lt.mp inside)] at rest
    cases rest

theorem offset_of_decoded_error
    (chunk : Chunk) {offset : Nat} {error : DecodeError}
    (decoded : (chunk.listingAt offset).decoded = .error error) :
    error.offset = offset := by
  cases decode_eq_iff.mp decoded with
  | endOfCode _ => rfl
  | unknownOpcode _ _ => rfl
  | missingOperand _ _ => rfl

theorem decoded_ne_endOfCode (chunk : Chunk) {offset : Nat} (inside : offset < chunk.size)
    (named : Nat) :
    (chunk.listingAt offset).decoded ≠ .error (.endOfCode named) := by
  intro decoded
  cases decode_eq_iff.mp decoded with
  | endOfCode past => exact absurd inside (Nat.not_lt.mpr past)

/-- An operand is missing only where the code ends with the operation. -/
theorem lacksOperand_iff (chunk : Chunk) (offset : Nat) :
    (chunk.listingAt offset).lacksOperand = true ↔
      chunk.code[offset]? = some Operation.constant.code ∧ offset + 1 = chunk.size := by
  unfold Listing.lacksOperand listingAt
  constructor
  · intro lacks
    split at lacks
    · rename_i decoded
      cases decode_eq_iff.mp decoded with
      | missingOperand here last => exact ⟨here, last⟩
    · cases lacks
  · intro truncated
    rw [(ReadsAs.missingOperand truncated.1 truncated.2).decode_eq]

/-- Nothing is listed after an operation whose operand is missing. -/
theorem listingsFrom_nextOffset_of_lacksOperand
    (chunk : Chunk) {offset : Nat}
    (lacks : (chunk.listingAt offset).lacksOperand = true) :
    chunk.listingsFrom (chunk.nextOffset offset) = [] := by
  obtain ⟨here, last⟩ := (chunk.lacksOperand_iff offset).mp lacks
  have next : chunk.nextOffset offset = chunk.size := by
    rw [nextOffset, (ReadsAs.missingOperand here last).decode_eq]
  exact chunk.listingsFrom_of_le (Nat.le_of_eq next.symm)

theorem countP_lacksOperand_le_one (chunk : Chunk) (offset : Nat) :
    (chunk.listingsFrom offset).countP Listing.lacksOperand ≤ 1 := by
  fun_induction listingsFrom chunk offset with
  | case1 offset inside inductionHypothesis =>
      by_cases lacks : (chunk.listingAt offset).lacksOperand = true
      · rw [chunk.listingsFrom_nextOffset_of_lacksOperand lacks, List.countP_cons_of_pos lacks]
        exact Nat.le_refl 1
      · rw [List.countP_cons_of_neg lacks]
        exact inductionHypothesis
  | case2 offset outside => exact Nat.zero_le 1

/-- The listings of a chunk are its code, cut into pieces: their bytes in order are all bytes of the
code, and each stands where the bytes of those before it end.  Only the last byte can be an
operation without its operand. -/
theorem disassemble_tiles (chunk : Chunk) (name : String) :
    (chunk.disassemble name).listings.flatMap Listing.bytes = chunk.code.toList ∧
    (chunk.disassemble name).listings.countP Listing.lacksOperand ≤ 1 ∧
    ∀ before listing after,
      (chunk.disassemble name).listings = before ++ listing :: after →
        listing.offset = (before.flatMap Listing.bytes).length ∧
        (∀ error, listing.decoded = .error error → error.offset = listing.offset) ∧
        (∀ offset, listing.decoded ≠ .error (.endOfCode offset)) ∧
        ∀ offset operation, listing.decoded = .error (.missingOperand offset operation) →
          after = [] ∧ listing.offset = chunk.size - 1 := by
  refine ⟨chunk.flatMap_bytes_listingsFrom 0, chunk.countP_lacksOperand_le_one 0, ?_⟩
  intro before listing after split
  obtain ⟨inside, atPlace, others⟩ := chunk.listing_of_split split
  rw [Nat.zero_add] at inside atPlace others
  subst atPlace
  refine ⟨rfl, ?_, chunk.decoded_ne_endOfCode inside, ?_⟩
  · intro error decoded
    exact chunk.offset_of_decoded_error decoded
  · intro offset operation decoded
    have lacks := Listing.lacksOperand_of_decoded decoded
    obtain ⟨_, last⟩ := (chunk.lacksOperand_iff _).mp lacks
    constructor
    · rw [others]
      exact chunk.listingsFrom_nextOffset_of_lacksOperand lacks
    · exact Nat.eq_sub_of_add_eq last

/-- An unknown opcode, a load of a constant that is not there, and a load without its operand. -/
def corruptCode : Chunk where
  code := #[0xee, 0, 7, 0]
  lines := #[1, 2, 2, 3]

theorem corruptCode_tiled :
    let listings := (corruptCode.disassemble "corrupt").listings
    listings.flatMap Listing.bytes = [0xee, 0, 7, 0] ∧
      listings = [corruptCode.listingAt 0, corruptCode.listingAt 1] ++
        [corruptCode.listingAt 3] ∧
      (corruptCode.listingAt 3).decoded = .error (.missingOperand 3 .constant) ∧
      (corruptCode.listingAt 3).offset = corruptCode.size - 1 := by
  intro listings
  have split : listings =
      [corruptCode.listingAt 0, corruptCode.listingAt 1] ++ [corruptCode.listingAt 3] := by
    change corruptCode.listingsFrom 0 = _
    rw [corruptCode.listingsFrom_of_lt (show 0 < corruptCode.size by decide),
      show corruptCode.nextOffset 0 = 1 from rfl,
      corruptCode.listingsFrom_of_lt (show 1 < corruptCode.size by decide),
      show corruptCode.nextOffset 1 = 3 from rfl,
      corruptCode.listingsFrom_of_lt (show 3 < corruptCode.size by decide),
      show corruptCode.nextOffset 3 = 4 from rfl,
      corruptCode.listingsFrom_of_le (show corruptCode.size ≤ 4 by decide)]
    rfl
  have decoded : (corruptCode.listingAt 3).decoded = .error (.missingOperand 3 .constant) := rfl
  obtain ⟨bytes, _, places⟩ := disassemble_tiles corruptCode "corrupt"
  obtain ⟨_, _, _, atEnd⟩ := places _ _ _ split
  exact ⟨bytes, split, decoded, (atEnd 3 .constant decoded).2⟩

end Chunk

end StackMachine
