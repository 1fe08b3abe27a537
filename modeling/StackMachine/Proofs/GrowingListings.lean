import Mathlib.Data.List.Forall2
import StackMachine.Proofs.Appending
import StackMachine.Proofs.Tiling

/-!
Contract: listings of a chunk stay when the chunk grows.

The listings of a chunk end where its code ends, and there the disassembly of a longer chunk comes
past as well.  An unknown opcode is passed over alone and an instruction with all its operands has
the size of its operation, so neither depends on what follows.  Only an operation at the very end of
the code can take a byte that is appended later, as its operand.

Owns:
- `KeptAs`, that a listing has stayed apart from a constant that it now finds;
- that listings, and the place where the next one starts, are kept by every growth of the chunk.

Does not own: the listings of what is appended.
-/

set_option autoImplicit false

namespace StackMachine

namespace Listing

/-- `after` shows all that `before` shows.  Only a load whose constant did not exist may show one
now. -/
structure KeptAs (before after : Listing) : Prop where
  offset : after.offset = before.offset
  line : after.line = before.line
  sameLine : after.sameLine = before.sameLine
  decoded : after.decoded = before.decoded
  constant :
    after.constant = before.constant ∨
      before.constant = none ∧ ∃ index, before.decoded = .ok (.constant index)

theorem KeptAs.bytes_eq {before after : Listing} (kept : before.KeptAs after) :
    after.bytes = before.bytes := by
  simp only [bytes, kept.decoded]

end Listing

namespace Chunk

namespace ExtendsTo

variable {before after : Chunk} {offset : Nat}

/-! ## One listing -/

theorem sameLine_eq (extended : before.ExtendsTo after) (inside : offset < before.size) :
    (after.listingAt offset).sameLine = (before.listingAt offset).sameLine := by
  have insideBefore : offset - 1 < before.size := by omega
  simp only [listingAt, extended.line?_eq inside, extended.line?_eq insideBefore]

/-- Decoding ends alike inside the code, unless the operand is still missing. -/
theorem decode_eq_of_complete
    (extended : before.ExtendsTo after)
    (inside : offset < before.size)
    (complete : (before.listingAt offset).lacksOperand = false) :
    Instruction.decode after.code offset = Instruction.decode before.code offset := by
  cases decoded : Instruction.decode before.code offset with
  | ok instruction => exact extended.decode_eq decoded
  | error error =>
      cases decode_eq_iff.mp decoded with
      | endOfCode past => exact absurd inside (Nat.not_lt.mpr past)
      | unknownOpcode here unknown =>
          exact (ReadsAs.unknownOpcode (getElem?_of_isPrefix extended.code here) unknown).decode_eq
      | missingOperand here last =>
          rw [(before.lacksOperand_iff offset).mpr ⟨here, last⟩] at complete
          cases complete

/-- A pool entry that exists stays, and one that does not may be added. -/
theorem constant?_eq_or (extended : before.ExtendsTo after) (index : UInt8) :
    after.constant? index = before.constant? index ∨ before.constant? index = none := by
  cases found : before.constant? index with
  | none => exact .inr rfl
  | some value => exact .inl (extended.constant?_eq found)

theorem listingAt_keptAs
    (extended : before.ExtendsTo after)
    (inside : offset < before.size)
    (complete : (before.listingAt offset).lacksOperand = false) :
    (before.listingAt offset).KeptAs (after.listingAt offset) where
  offset := rfl
  line := extended.line?_eq inside
  sameLine := extended.sameLine_eq inside
  decoded := extended.decode_eq_of_complete inside complete
  constant := by
    simp only [listingAt, extended.decode_eq_of_complete inside complete]
    split
    · rename_i index decoded
      rcases extended.constant?_eq_or index with same | missing
      · exact .inl same
      · exact .inr ⟨missing, index, decoded⟩
    · exact .inl rfl

/-- The next listing starts at the same place, because the listing stands for the same bytes. -/
theorem nextOffset_eq
    (extended : before.ExtendsTo after)
    (inside : offset < before.size)
    (complete : (before.listingAt offset).lacksOperand = false) :
    after.nextOffset offset = before.nextOffset offset := by
  have insideAfter : offset < after.size := Nat.lt_of_lt_of_le inside extended.size_le
  rw [after.nextOffset_eq_add_length insideAfter, before.nextOffset_eq_add_length inside,
    (extended.listingAt_keptAs inside complete).bytes_eq]

/-! ## All listings -/

/-- The longer walk keeps the listings of the shorter one and comes to its end, where it goes on. -/
theorem exists_listingsFrom_eq_append
    (extended : before.ExtendsTo after)
    (offset : Nat)
    (inCode : offset ≤ before.size)
    (complete : ∀ listing ∈ before.listingsFrom offset, listing.lacksOperand = false) :
    ∃ kept,
      after.listingsFrom offset = kept ++ after.listingsFrom before.size ∧
        List.Forall₂ Listing.KeptAs (before.listingsFrom offset) kept := by
  fun_induction listingsFrom before offset with
  | case1 offset inside inductionHypothesis =>
      have firstComplete := complete (before.listingAt offset) (List.mem_cons_self ..)
      have restComplete : ∀ listing ∈ before.listingsFrom (before.nextOffset offset),
          listing.lacksOperand = false := by
        intro listing member
        exact complete listing (List.mem_cons_of_mem _ member)
      obtain ⟨kept, listed, keptAs⟩ :=
        inductionHypothesis (before.nextOffset_le inside) restComplete
      -- Both walks go on from one place, so the hypothesis speaks of the rest of either.
      refine ⟨after.listingAt offset :: kept, ?_,
        .cons (extended.listingAt_keptAs inside firstComplete) keptAs⟩
      have insideAfter : offset < after.size := Nat.lt_of_lt_of_le inside extended.size_le
      rw [after.listingsFrom_of_lt insideAfter, extended.nextOffset_eq inside firstComplete,
        listed, List.cons_append]
  | case2 offset outside =>
      have atEnd : offset = before.size := Nat.le_antisymm inCode (Nat.not_lt.mp outside)
      exact ⟨[], by rw [atEnd, List.nil_append], .nil⟩

end ExtendsTo

/-- If the last listing has its operand, all have: nothing is listed after one that lacks it. -/
theorem lacksOperand_eq_false_of_last
    {chunk : Chunk} {offset : Nat}
    (lastComplete : ∀ listing, (chunk.listingsFrom offset).getLast? = some listing →
      listing.lacksOperand = false) :
    ∀ listing ∈ chunk.listingsFrom offset, listing.lacksOperand = false := by
  intro listing member
  by_contra lacking
  obtain ⟨before, after, split⟩ := List.append_of_mem member
  obtain ⟨_, isListing, others⟩ := chunk.listing_of_split split
  have lacks : listing.lacksOperand = true := by simpa using lacking
  rw [isListing] at lacks
  have isLast : (chunk.listingsFrom offset).getLast? = some listing := by
    rw [split, others, chunk.listingsFrom_nextOffset_of_lacksOperand lacks, List.getLast?_concat]
  exact lacking (lastComplete listing isLast)

/-- Calls that append to a chunk keep its listings, unless the last of them waits for an operand.
They stand first in the new disassembly, one by one as they were, apart from loads that have found
their constants; what follows starts where the code ended before. -/
theorem disassemble_replay_keeps_listings
    (chunk : Chunk)
    (edits : List Edit)
    (name : String)
    (lastComplete : ∀ listing, (chunk.disassemble name).listings.getLast? = some listing →
      listing.lacksOperand = false) :
    ∃ kept,
      ((chunk.replay edits).disassemble name).listings =
          kept ++ (chunk.replay edits).listingsFrom chunk.size ∧
        List.Forall₂ Listing.KeptAs (chunk.disassemble name).listings kept := by
  have extended := chunk.extendsTo_replay edits
  have complete := lacksOperand_eq_false_of_last lastComplete
  exact extended.exists_listingsFrom_eq_append 0 (Nat.zero_le _) complete

/-- An unknown opcode, and a load of a constant that is not there yet. -/
def earlyLoad : Chunk where
  code := #[0xee, 0, 0]
  lines := #[8, 8, 8]

/-- Adds the constant, and a byte that is an operation without its operand. -/
def lateConstant : List Edit :=
  [.addConstant .nil, .write 0 9]

theorem earlyLoad_kept :
    let listings := (earlyLoad.disassemble "load").listings
    let grown := earlyLoad.replay lateConstant
    listings.getLast? = some (earlyLoad.listingAt 1) ∧
      (earlyLoad.listingAt 1).lacksOperand = false ∧
      (earlyLoad.listingAt 1).constant = none ∧
      (grown.listingAt 1).constant = some .nil ∧
      ∃ kept, (grown.disassemble "load").listings = kept ++ grown.listingsFrom 3 ∧
        List.Forall₂ Listing.KeptAs listings kept := by
  intro listings grown
  have listed : listings = [earlyLoad.listingAt 0, earlyLoad.listingAt 1] := by
    show earlyLoad.listingsFrom 0 = _
    rw [earlyLoad.listingsFrom_of_lt (show 0 < earlyLoad.size by decide),
      show earlyLoad.nextOffset 0 = 1 from rfl,
      earlyLoad.listingsFrom_of_lt (show 1 < earlyLoad.size by decide),
      show earlyLoad.nextOffset 1 = 3 from rfl,
      earlyLoad.listingsFrom_of_le (show earlyLoad.size ≤ 3 by decide)]
  have last : listings.getLast? = some (earlyLoad.listingAt 1) := by
    rw [listed]
    rfl
  have lastComplete : ∀ listing, listings.getLast? = some listing →
      listing.lacksOperand = false := by
    intro listing isLast
    rw [last] at isLast
    cases isLast
    rfl
  exact ⟨last, rfl, rfl, rfl,
    disassemble_replay_keeps_listings earlyLoad lateConstant "load" lastComplete⟩

end Chunk

end StackMachine
