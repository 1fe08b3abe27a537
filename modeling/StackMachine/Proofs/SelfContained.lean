import StackMachine.Proofs.Emission
import StackMachine.Proofs.Lockstep

/-!
Contract: chunks whose loads find their constants, and the faults that they cannot raise.

A call that writes a constant adds it to the pool and emits its load in one go.  Code made of such
loads, negations and `Return`s alone is well formed by construction, whatever the order of the calls
and however large the pool.  Only the stack can stop its run, or the end of code without a `Return`.

Owns: `Edit.isSelfContained`, the calls that emit no other load, and the faults that are left to the
code they make.
Does not own: when the stack overflows or runs empty.
-/

set_option autoImplicit false

namespace StackMachine

/-- Whether the call is whole and every load that it emits is of a constant that it adds itself. -/
def Edit.isSelfContained : Edit → Bool
  | .writeInstruction (.constant _) _ => false
  | edit => edit.isWhole

/-- Whether the fault is about the number of values on the stack or about their kinds. -/
def Fault.concernsStack : Fault → Bool
  | .stackUnderflow => true
  | .stackOverflow _ => true
  | .operandKind _ _ => true
  | .unknownOpcode _ => false
  | .unexpectedEnd => false
  | .constantIndex _ _ => false

/-! ## What self-contained calls emit -/

namespace Edit

variable {edit : Edit} {chunk : Chunk} {emission : Emission}

theorem isWhole_of_isSelfContained (selfContained : edit.isSelfContained = true) :
    edit.isWhole = true := by
  unfold isSelfContained at selfContained
  split at selfContained
  · cases selfContained
  · exact selfContained

/-- A self-contained call that emits a load has added the constant. -/
theorem exists_carried
    {index : UInt8}
    (selfContained : edit.isSelfContained = true)
    (emits : edit.emission? chunk = some emission)
    (isLoad : emission.instruction = .constant index) :
    ∃ value, emission.carried = some value := by
  cases edit with
  | write byte line => cases emits
  | writeOperation operation line =>
      cases operation with
      | constant => cases emits
      | negate =>
          cases emits
          cases isLoad
      | ret =>
          cases emits
          cases isLoad
  | writeInstruction instruction line =>
      cases emits
      cases isLoad
      cases selfContained
  | addConstant value => cases emits
  | writeConstant value line =>
      simp only [emission?] at emits
      split at emits
      · cases emits
        exact ⟨value, rfl⟩
      · cases emits

end Edit

namespace Chunk

theorem exists_edit_of_mem_emissions
    {chunk : Chunk} {edits : List Edit} {emission : Emission}
    (emitted : emission ∈ chunk.emissions edits) :
    ∃ edit ∈ edits, ∃ before : Chunk, edit.emission? before = some emission := by
  induction edits generalizing chunk with
  | nil => cases emitted
  | cons edit edits inductionHypothesis =>
      rcases List.mem_append.mp emitted with byFirst | byOthers
      · exact ⟨edit, List.mem_cons_self .., chunk, Option.mem_toList.mp byFirst⟩
      · obtain ⟨other, member, emits⟩ := inductionHypothesis byOthers
        exact ⟨other, List.mem_cons_of_mem _ member, emits⟩

/-- What a call emits on every chunk is among the emissions of all calls. -/
theorem mem_emissions
    {chunk : Chunk} {edits : List Edit} {edit : Edit} {emission : Emission}
    (member : edit ∈ edits)
    (emits : ∀ before : Chunk, edit.emission? before = some emission) :
    emission ∈ chunk.emissions edits := by
  induction edits generalizing chunk with
  | nil => cases member
  | cons first edits inductionHypothesis =>
      apply List.mem_append.mpr
      rcases List.mem_cons.mp member with isFirst | inOthers
      · left
        rw [← isFirst, emits chunk]
        exact List.mem_singleton_self emission
      · right
        exact inductionHypothesis inOthers

/-! ## What is left to fault -/

namespace Encodes

variable {chunk : Chunk} {emitted : List Emission}

/-- The listings of emitted code decode to the emitted instructions. -/
theorem map_decoded (encodes : chunk.Encodes emitted) :
    (chunk.listingsFrom 0).map Listing.decoded =
      emitted.map fun emission => .ok emission.instruction := by
  symm
  rw [← List.forall₂_eq_eq_eq, List.forall₂_map_left_iff, List.forall₂_map_right_iff]
  apply encodes.forall₂_shows.imp
  intro emission listing shows
  exact shows.decoded.symm

/-- What blocks a walk inside the code is an emitted instruction, which the stack does not suit. -/
theorem concernsStack_of_blocked
    {first last : Machine} {steps : List (Machine × Instruction)}
    {limit : Nat} {stack : List Value} {fault : Fault}
    (encodes : chunk.Encodes emitted)
    (found : ∀ emission ∈ emitted, ∀ index, emission.instruction = .constant index →
      index.toNat < chunk.constants.size)
    (walk : Machine.Walk chunk first steps last)
    (start : first.cursor = 0)
    (inside : last.cursor < chunk.size)
    (blocked : Blocked chunk limit last.cursor stack fault) :
    fault.concernsStack = true := by
  have shown : (chunk.listingAt last.cursor).decoded ∈
      emitted.map fun emission => .ok emission.instruction := by
    rw [← encodes.map_decoded, ← start, walk.listingsFrom_eq, chunk.listingsFrom_of_lt inside]
    apply List.mem_map_of_mem
    exact List.mem_append_right _ (List.mem_cons_self ..)
  obtain ⟨emission, member, decoded⟩ := List.mem_map.mp shown
  change _ = Instruction.decode chunk.code last.cursor at decoded
  cases blocked with
  | endOfCode past => exact absurd inside (Nat.not_lt.mpr past)
  | missingOperand here lastByte =>
      rw [(ReadsAs.missingOperand here lastByte).decode_eq] at decoded
      cases decoded
  | unknownOpcode here unknown =>
      rw [(ReadsAs.unknownOpcode here unknown).decode_eq] at decoded
      cases decoded
  | refused isDecoded refusal =>
      rw [isDecoded] at decoded
      cases refusal with
      | constantIndex outside =>
          have inPool := found emission member _ (Except.ok.inj decoded)
          exact absurd inPool (Nat.not_lt.mpr outside)
      | stackOverflow _ _ => rfl
      | stackUnderflow => rfl
      | operandKind _ => rfl

/-- A walk to the end of the code has passed all listings, and a walk passes no `Return`. -/
theorem noReturn_of_walk
    {first last : Machine} {steps : List (Machine × Instruction)}
    (encodes : chunk.Encodes emitted)
    (walk : Machine.Walk chunk first steps last)
    (start : first.cursor = 0)
    (atEnd : last.cursor = chunk.size) :
    ∀ emission ∈ emitted, emission.instruction ≠ .ret := by
  intro emission member isReturn
  have passed : Except.ok Instruction.ret ∈
      ((steps.map Prod.fst).map (Machine.upcoming chunk)).map Listing.decoded := by
    have decodings := encodes.map_decoded
    rw [← start, walk.listingsFrom_eq, chunk.listingsFrom_of_le (Nat.le_of_eq atEnd.symm),
      List.append_nil] at decodings
    rw [decodings, ← isReturn]
    exact List.mem_map_of_mem member
  obtain ⟨_, isUpcoming, decoded⟩ := List.mem_map.mp passed
  obtain ⟨state, isStart, rfl⟩ := List.mem_map.mp isUpcoming
  obtain ⟨⟨_, instruction⟩, inSteps, rfl⟩ := List.mem_map.mp isStart
  obtain ⟨isDecoded, notReturn⟩ := walk.decode_of_mem inSteps
  apply notReturn
  exact Except.ok.inj (isDecoded.symm.trans decoded)

/-- Emitted code whose loads find a constant is run up to a fault of the stack, or to its end if no
`Return` has been emitted. -/
theorem fault_cases
    {machine : Machine} {error : RuntimeError}
    (encodes : chunk.Encodes emitted)
    (found : ∀ emission ∈ emitted, ∀ index, emission.instruction = .constant index →
      index.toNat < chunk.constants.size)
    (failed : (machine.interpret chunk).result = .error (.runtime error)) :
    error.fault.concernsStack = true ∨
      (error.fault = .unexpectedEnd ∧ error.offset = chunk.size ∧
        ∀ emission ∈ emitted, emission.instruction ≠ .ret) := by
  obtain ⟨steps, last, walk, blocked, atOffset, _⟩ := Machine.exists_blocked_of_interpret failed
  by_cases inside : last.cursor < chunk.size
  · left
    exact encodes.concernsStack_of_blocked found walk rfl inside blocked
  · right
    have inCode : last.cursor ≤ chunk.size := walk.decodes.le_size (Nat.zero_le _)
    have atEnd : last.cursor = chunk.size := Nat.le_antisymm inCode (Nat.not_lt.mp inside)
    have noCode : Blocked chunk last.stackLimit last.cursor last.stack .unexpectedEnd :=
      .endOfCode (Nat.le_of_eq atEnd.symm)
    exact ⟨blocked.unique noCode, atOffset.trans atEnd, encodes.noReturn_of_walk walk rfl atEnd⟩

end Encodes

end Chunk

namespace Machine

/-- Code made by self-contained calls has no unknown opcode and no load of a missing constant.  A run
of it meets the end of the code only after all its instructions, none of them a `Return`. -/
theorem interpret_of_isSelfContained
    (machine : Machine)
    (edits : List Edit)
    (selfContained : ∀ edit ∈ edits, edit.isSelfContained = true)
    (error : RuntimeError)
    (failed : (machine.interpret ((∅ : Chunk).replay edits)).result = .error (.runtime error)) :
    (∀ byte, error.fault ≠ .unknownOpcode byte) ∧
    (∀ index poolSize, error.fault ≠ .constantIndex index poolSize) ∧
    (error.fault = .unexpectedEnd →
      error.offset = ((∅ : Chunk).replay edits).size ∧
        ∀ line, .writeInstruction .ret line ∉ edits ∧ .writeOperation .ret line ∉ edits) := by
  have whole : ∀ edit ∈ edits, edit.isWhole = true := by
    intro edit member
    exact Edit.isWhole_of_isSelfContained (selfContained edit member)
  have encodes := Chunk.encodes_empty.replay whole
  have found : ∀ emission ∈ (∅ : Chunk).emissions edits, ∀ index,
      emission.instruction = .constant index →
        index.toNat < ((∅ : Chunk).replay edits).constants.size := by
    intro emission emitted index isLoad
    obtain ⟨edit, member, before, emits⟩ := Chunk.exists_edit_of_mem_emissions emitted
    obtain ⟨value, isCarried⟩ := Edit.exists_carried (selfContained edit member) emits isLoad
    obtain ⟨_, isSame, inPool⟩ := encodes.carries emission emitted value isCarried
    cases isLoad.symm.trans isSame
    exact (Array.getElem?_eq_some_iff.mp inPool).1
  rcases encodes.fault_cases found failed with ofStack | ⟨atEnd, offset, noReturn⟩
  · refine ⟨?_, ?_, ?_⟩
    · intro byte isUnknown
      rw [isUnknown] at ofStack
      cases ofStack
    · intro index poolSize isMissing
      rw [isMissing] at ofStack
      cases ofStack
    · intro isEnd
      rw [isEnd] at ofStack
      cases ofStack
  · refine ⟨by simp [atEnd], by simp [atEnd], ?_⟩
    intro _
    refine ⟨offset, ?_⟩
    intro line
    constructor
    · intro member
      exact noReturn ⟨.ret, line, none⟩ (Chunk.mem_emissions member fun _ => rfl) rfl
    · intro member
      exact noReturn ⟨.ret, line, none⟩ (Chunk.mem_emissions member fun _ => rfl) rfl

/-- A constant that is loaded and negated, with more constants between the two than any load can
reach, and one more that is refused. -/
def overfullPool : List Edit :=
  [.writeConstant (.number (.ofBits 0x3ff3333333333333)) 5] ++
    List.replicate 256 (.addConstant .nil) ++
    [.writeConstant (.bool true) 6, .writeInstruction .negate 7]

theorem overfullPool_runs_off :
    let chunk := (∅ : Chunk).replay overfullPool
    let error : RuntimeError := { fault := .unexpectedEnd, offset := 3, line := some 7 }
    (∀ edit ∈ overfullPool, edit.isSelfContained = true) ∧
      chunk.constants.size = 257 ∧
      (({ } : Machine).interpret chunk).result = .error (.runtime error) ∧
      error.offset = chunk.size ∧
      ∀ line, .writeInstruction .ret line ∉ overfullPool ∧
        .writeOperation .ret line ∉ overfullPool := by
  intro chunk error
  have selfContained : ∀ edit ∈ overfullPool, edit.isSelfContained = true := by decide +kernel
  have failed : (({ } : Machine).interpret chunk).result = .error (.runtime error) := by
    decide +kernel
  obtain ⟨_, _, atEnd⟩ :=
    interpret_of_isSelfContained { } overfullPool selfContained error failed
  exact ⟨selfContained, by decide +kernel, failed, atEnd rfl⟩

end Machine

end StackMachine
