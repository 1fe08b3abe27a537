import Mathlib.Data.List.Forall2
import StackMachine.Proofs.Tiling
import StackMachine.Proofs.Walk

/-!
Contract: equal chunks cannot be told apart by running or by listing them.

Equality of chunks is not identity.  Constants compare as values, so a pool with a zero equals one
with the negative zero in its place, and a chunk that holds something that is not a number does not
even equal itself.  What is done with a chunk respects this equality all the same: two runs of equal
chunks keep stacks that are equal value by value.

Owns:
- what equality of values preserves: kinds, and equality after a negation;
- `Alike`, equality of chunks and of machines by their parts, and that single instructions, walks and
  interpretations preserve it;
- equality of the disassemblies.

Does not own: texts, which show the sign of a zero.
-/

set_option autoImplicit false

namespace StackMachine

/-! ## Values -/

theorem Number.beq_neg {left right : Number} (same : left == right) : -left == -right := by
  change (_ && _ && _) = true at same
  change (_ && _ && _) = true
  rw [Bool.and_eq_true, Bool.or_eq_true, decide_eq_true_eq] at same ⊢
  -- A sign decides neither whether a number is a zero nor whether it is one at all.
  obtain ⟨numeric, identical | zeros⟩ := same
  · exact ⟨numeric, .inl (congrArg Neg.neg identical)⟩
  · exact ⟨numeric, .inr zeros⟩

theorem Value.exists_number_of_beq {datum : Number} {right : Value}
    (same : Value.number datum == right) :
    ∃ other, right = .number other ∧ datum == other := by
  cases right with
  | number other => exact ⟨other, rfl, same⟩
  | bool truth => cases same
  | nil => cases same

theorem Value.kind_eq_of_beq {left right : Value} (same : left == right) :
    left.kind = right.kind := by
  cases left with
  | number datum =>
      obtain ⟨_, rfl, _⟩ := exists_number_of_beq same
      rfl
  | bool truth =>
      cases right with
      | number datum => cases same
      | bool other => rfl
      | nil => cases same
  | nil =>
      cases right with
      | number datum => cases same
      | bool truth => cases same
      | nil => rfl

/-- The values of two lists are equal one by one. -/
abbrev SameValues : List Value → List Value → Prop :=
  List.Forall₂ fun left right => left == right

theorem forall₂_beq_iff {α : Type} [BEq α] {left right : List α} :
    List.Forall₂ (fun first second => first == second) left right ↔ left == right := by
  induction left generalizing right with
  | nil => cases right <;> simp
  | cons first left inductionHypothesis =>
      cases right with
      | nil => simp
      | cons second right => simp [inductionHypothesis]

theorem exists_getElem?_of_forall₂
    {α β : Type} {related : α → β → Prop} {left : List α} {right : List β}
    {position : Nat} {entry : α}
    (pairs : List.Forall₂ related left right)
    (here : left[position]? = some entry) :
    ∃ other, right[position]? = some other ∧ related entry other := by
  induction pairs generalizing position with
  | nil => cases here
  | @cons first second _ _ isRelated _ inductionHypothesis =>
      cases position with
      | zero =>
          cases here
          exact ⟨second, rfl, isRelated⟩
      | succ position => exact inductionHypothesis here

theorem Listing.decodedAlike_self (decoded : Except DecodeError Instruction) :
    Listing.decodedAlike decoded decoded = true := by
  cases decoded <;> exact beq_self_eq_true _

/-! ## Chunks -/

namespace Chunk

/-- Code and lines are the same, and the constants are equal one by one. -/
structure Alike (left right : Chunk) : Prop where
  code : left.code = right.code
  lines : left.lines = right.lines
  constants : SameValues left.constants.toList right.constants.toList

theorem beq_iff_alike {left right : Chunk} : left == right ↔ left.Alike right := by
  have byParts : (left == right) =
      (left.code == right.code && left.lines == right.lines &&
        left.constants == right.constants) := rfl
  rw [byParts, Bool.and_eq_true, Bool.and_eq_true, beq_iff_eq, beq_iff_eq, ← Array.beq_toList,
    ← forall₂_beq_iff]
  constructor
  · intro same
    exact ⟨same.1.1, same.1.2, same.2⟩
  · intro alike
    exact ⟨⟨alike.code, alike.lines⟩, alike.constants⟩

namespace Alike

variable {left right : Chunk}

theorem size_eq (alike : left.Alike right) : left.size = right.size := by
  rw [size, size, alike.code]

theorem poolSize_eq (alike : left.Alike right) : left.constants.size = right.constants.size :=
  alike.constants.length_eq

theorem exists_constant? {index : UInt8} {value : Value}
    (alike : left.Alike right)
    (found : left.constant? index = some value) :
    ∃ other, right.constant? index = some other ∧ value == other := by
  rw [constant?, ← Array.getElem?_toList] at found ⊢
  exact exists_getElem?_of_forall₂ alike.constants found

theorem constant?_beq (alike : left.Alike right) (index : UInt8) :
    left.constant? index == right.constant? index := by
  cases found : left.constant? index with
  | some value =>
      obtain ⟨other, alsoFound, same⟩ := alike.exists_constant? found
      rw [alsoFound]
      exact same
  | none =>
      have outside : right.constant? index = none := by
        apply Array.getElem?_eq_none
        rw [← alike.poolSize_eq]
        exact Array.getElem?_eq_none_iff.mp found
      rw [outside]
      rfl

theorem locate_eq (alike : left.Alike right) (offset : Nat) (fault : Fault) :
    left.locate offset fault = right.locate offset fault := by
  simp only [locate, line?, alike.lines]

theorem fetchEnd_eq (alike : left.Alike right) (offset : Nat) :
    left.fetchEnd offset = right.fetchEnd offset := by
  simp only [fetchEnd, alike.code]

/-! ## Instructions -/

/-- An instruction that one chunk lets a stack execute is executed on an equal stack as well, and the
stacks stay equal. -/
theorem exists_executes
    {limit : Nat} {instruction : Instruction} {before after other : List Value}
    (alike : left.Alike right)
    (executes : Executes left limit instruction before after)
    (same : SameValues before other) :
    ∃ result, Executes right limit instruction other result ∧ SameValues after result := by
  cases executes with
  | constant found room =>
      obtain ⟨entry, alsoFound, sameEntry⟩ := alike.exists_constant? found
      rw [same.length_eq] at room
      exact ⟨entry :: other, .constant alsoFound room, .cons sameEntry same⟩
  | negate =>
      obtain ⟨top, rest, sameTop, sameRest, rfl⟩ := List.forall₂_cons_left_iff.mp same
      obtain ⟨datum, rfl, sameDatum⟩ := Value.exists_number_of_beq sameTop
      exact ⟨_, .negate, .cons (Number.beq_neg sameDatum) sameRest⟩

/-- A refusal is about sizes and kinds, in which equal stacks and pools agree. -/
theorem refuses
    {limit : Nat} {instruction : Instruction} {stack other : List Value} {fault : Fault}
    (alike : left.Alike right)
    (refused : Refuses left limit instruction stack fault)
    (same : SameValues stack other) :
    Refuses right limit instruction other fault := by
  cases refused with
  | constantIndex outside =>
      rw [alike.poolSize_eq] at outside ⊢
      exact .constantIndex outside
  | stackOverflow inside full =>
      rw [alike.poolSize_eq] at inside
      rw [same.length_eq] at full
      exact .stackOverflow inside full
  | stackUnderflow =>
      cases same
      exact .stackUnderflow
  | operandKind notNumber =>
      obtain ⟨top, rest, sameTop, _, rfl⟩ := List.forall₂_cons_left_iff.mp same
      rw [Value.kind_eq_of_beq sameTop] at notNumber ⊢
      exact .operandKind notNumber

theorem blocked
    {limit offset : Nat} {stack other : List Value} {fault : Fault}
    (alike : left.Alike right)
    (stuck : Blocked left limit offset stack fault)
    (same : SameValues stack other) :
    Blocked right limit offset other fault := by
  cases stuck with
  | endOfCode past =>
      rw [alike.size_eq] at past
      exact .endOfCode past
  | missingOperand here last =>
      rw [alike.code] at here
      rw [alike.size_eq] at last
      exact .missingOperand here last
  | unknownOpcode here unknown =>
      rw [alike.code] at here
      exact .unknownOpcode here unknown
  | refused decoded refusal =>
      rw [alike.code] at decoded
      exact .refused decoded (alike.refuses refusal same)

/-! ## Listings -/

theorem listingAt_beq (alike : left.Alike right) (offset : Nat) :
    left.listingAt offset == right.listingAt offset := by
  change (_ && _ && _ && _ && _) = true
  simp only [listingAt, line?, alike.code, alike.lines, Listing.decodedAlike_self, beq_self_eq_true,
    Bool.true_and]
  split
  · exact alike.constant?_beq _
  · rfl

theorem listingsFrom_beq (alike : left.Alike right) (offset : Nat) :
    left.listingsFrom offset == right.listingsFrom offset := by
  fun_induction listingsFrom left offset with
  | case1 offset inside inductionHypothesis =>
      have next : left.nextOffset offset = right.nextOffset offset := by
        simp only [nextOffset, alike.code, alike.size_eq]
      rw [alike.size_eq] at inside
      rw [right.listingsFrom_of_lt inside, List.cons_beq_cons, alike.listingAt_beq offset, ← next]
      exact inductionHypothesis
  | case2 offset outside =>
      rw [alike.size_eq] at outside
      rw [right.listingsFrom_of_le (Nat.not_lt.mp outside)]
      rfl

theorem disassemble_beq (alike : left.Alike right) (name : String) :
    left.disassemble name == right.disassemble name := by
  change (_ && _) = true
  rw [Bool.and_eq_true]
  exact ⟨beq_self_eq_true name, alike.listingsFrom_beq 0⟩

end Alike

end Chunk

namespace Machine

/-! ## Runs -/

/-- Two machines that are about to run the same code under the same limit, on equal stacks. -/
structure Alike (left right : Machine) : Prop where
  cursor : left.cursor = right.cursor
  stackLimit : left.stackLimit = right.stackLimit
  stack : SameValues left.stack right.stack

theorem alike_reset {left right : Machine} (sameLimit : left.stackLimit = right.stackLimit) :
    left.reset.Alike right.reset :=
  ⟨rfl, sameLimit, .nil⟩

theorem Alike.advance
    {left right : Machine} {stack other : List Value}
    (alike : left.Alike right)
    (instruction : Instruction)
    (same : SameValues stack other) :
    (left.advance instruction stack).Alike (right.advance instruction other) where
  cursor := congrArg (· + instruction.operation.size) alike.cursor
  stackLimit := alike.stackLimit
  stack := same

/-- A walk through one of two equal chunks has a counterpart in the other. -/
theorem Walk.exists_of_alike
    {left right : Chunk} {first last other : Machine} {steps : List (Machine × Instruction)}
    (walk : Walk left first steps last)
    (chunks : left.Alike right)
    (machines : first.Alike other) :
    ∃ otherSteps otherLast, Walk right other otherSteps otherLast ∧ last.Alike otherLast := by
  induction walk generalizing other with
  | nil machine => exact ⟨[], other, .nil other, machines⟩
  | @cons _ _ instruction _ _ decoded executes _ inductionHypothesis =>
      obtain ⟨stack, otherExecutes, sameStack⟩ := chunks.exists_executes executes machines.stack
      rw [machines.stackLimit] at otherExecutes
      rw [chunks.code, machines.cursor] at decoded
      obtain ⟨otherSteps, otherLast, rest, alike⟩ :=
        inductionHypothesis (machines.advance instruction sameStack)
      exact ⟨_, otherLast, .cons decoded otherExecutes rest, alike⟩

/-- Equal chunks, run by machines with the same limit, end alike. -/
theorem interpret_of_alike
    {left right : Machine} {chunk other : Chunk}
    (chunks : chunk.Alike other)
    (sameLimit : left.stackLimit = right.stackLimit) :
    (left.interpret chunk).result = (right.interpret other).result ∧
      (left.interpret chunk).machine.residue == (right.interpret other).machine.residue ∧
      (left.interpret chunk).machine.cursor = (right.interpret other).machine.cursor := by
  obtain ⟨steps, last, walk, ended⟩ := exists_walk_to_end chunk left.bounded_reset
  obtain ⟨otherSteps, otherLast, otherWalk, alike⟩ :=
    walk.exists_of_alike chunks (alike_reset sameLimit)
  rcases ended with decoded | ⟨fault, blocked⟩
  · have otherDecoded : Instruction.decode other.code otherLast.cursor = .ok .ret := by
      rw [← chunks.code, ← alike.cursor]
      exact decoded
    rw [interpret_of_ret walk decoded, interpret_of_ret otherWalk otherDecoded]
    refine ⟨rfl, ?_, congrArg (· + 1) alike.cursor⟩
    exact forall₂_beq_iff.mp (List.forall₂_reverse_iff.mpr alike.stack)
  · have otherBlocked := chunks.blocked blocked alike.stack
    rw [alike.stackLimit, alike.cursor] at otherBlocked
    rw [interpret_of_blocked walk blocked, interpret_of_blocked otherWalk otherBlocked,
      alike.cursor, chunks.locate_eq, chunks.fetchEnd_eq]
    exact ⟨rfl, rfl, rfl⟩

/-- Equal chunks cannot be told apart: machines with the same limit, whatever they did before, report
the same of both, leave equal values behind and stop at the same place, and the disassemblies are
equal under every name. -/
theorem interpret_congr_of_beq
    (left right : Machine)
    (chunk other : Chunk)
    (sameChunk : chunk == other)
    (sameLimit : left.stackLimit = right.stackLimit) :
    (left.interpret chunk).result = (right.interpret other).result ∧
      (left.interpret chunk).machine.residue == (right.interpret other).machine.residue ∧
      (left.interpret chunk).machine.cursor = (right.interpret other).machine.cursor ∧
      ∀ name, chunk.disassemble name == other.disassemble name := by
  have chunks := Chunk.beq_iff_alike.mp sameChunk
  obtain ⟨result, residue, cursor⟩ := interpret_of_alike chunks sameLimit
  exact ⟨result, residue, cursor, chunks.disassemble_beq⟩

/-- A zero, negated three times, and a value that is no number. -/
def negatedZero (zero : Number) : Chunk where
  code := #[0, 0, 1, 1, 1, 0, 1, 2]
  lines := #[4, 4, 4, 5, 5, 6, 6, 7]
  constants := #[.number zero, .bool true]

theorem negatedZero_congr :
    let positive := negatedZero (.ofBits 0)
    let negative := negatedZero (.ofBits 0x8000000000000000)
    let used : Machine := { cursor := 9, stack := [.nil], stackLimit := 2, residue := [.nil] }
    let fresh : Machine := { stackLimit := 2 }
    positive ≠ negative ∧ positive == negative ∧
      (used.interpret positive).result = .ok () ∧
      (fresh.interpret negative).result = .ok () ∧
      (used.interpret positive).machine.residue ≠ (fresh.interpret negative).machine.residue ∧
      (used.interpret positive).machine.residue == (fresh.interpret negative).machine.residue ∧
      (used.interpret positive).machine.cursor = (fresh.interpret negative).machine.cursor ∧
      positive.disassemble "zero" == negative.disassemble "zero" := by
  intro positive negative used fresh
  have sameChunk : positive == negative := by decide
  have succeeds : (used.interpret positive).result = .ok () := by decide +kernel
  obtain ⟨result, residue, cursor, disassembly⟩ :=
    interpret_congr_of_beq used fresh positive negative sameChunk rfl
  exact ⟨by decide, sameChunk, succeeds, result.symm.trans succeeds, by decide +kernel, residue,
    cursor, disassembly "zero"⟩

end Machine

end StackMachine
