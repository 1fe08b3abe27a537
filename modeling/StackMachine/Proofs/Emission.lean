import Mathlib.Data.List.Forall2
import StackMachine.Proofs.Edits
import StackMachine.Proofs.Tiling

/-!
Contract: the instructions that calls put into a chunk, and the listings that show them.

A chunk keeps code, lines and constants apart, and they grow at different rates.  As long as every
call appends whole instructions, they stay aligned: the disassembly lists the instructions one by one
as they were emitted, each with its own line and constant.

Owns:
- `Emission`, an instruction as a call emits it, and the emissions of a sequence of calls;
- `Encodes`, that a chunk consists of given emissions, which every call maintains;
- that the listings of such a chunk show its emissions.

Does not own: calls that write single bytes, or what the instructions do.
-/

set_option autoImplicit false

namespace StackMachine

/-- An instruction that a call has appended. -/
structure Emission where
  instruction : Instruction
  line : Nat
  /-- The constant that the same call has added for the instruction to load, if it has. -/
  carried : Option Value
deriving DecidableEq, Repr

/-- The constant that an emitted instruction loads from the chunk that it has become part of. -/
def Emission.constant (chunk : Chunk) (emission : Emission) : Option Value :=
  match emission.carried, emission.instruction with
  | some value, _ => some value
  | none, .constant index => chunk.constants[index.toNat]?
  | none, .negate => none
  | none, .ret => none

namespace Edit

/-- Whether the call appends no part of an instruction without the rest of it. -/
def isWhole : Edit → Bool
  | .write _ _ => false
  | .writeOperation .constant _ => false
  | .writeOperation .negate _ => true
  | .writeOperation .ret _ => true
  | .writeInstruction _ _ => true
  | .addConstant _ => true
  | .writeConstant _ _ => true

/-- The instruction that a whole call on `chunk` appends, if it appends one.  A constant that is
refused comes with none. -/
def emission? (chunk : Chunk) : Edit → Option Emission
  | .write _ _ => none
  | .writeOperation .constant _ => none
  | .writeOperation .negate line => some ⟨.negate, line, none⟩
  | .writeOperation .ret line => some ⟨.ret, line, none⟩
  | .writeInstruction instruction line => some ⟨instruction, line, none⟩
  | .addConstant _ => none
  | .writeConstant value line =>
      match (chunk.writeConstant value line).2 with
      | .ok index => some ⟨.constant index, line, some value⟩
      | .error _ => none

end Edit

namespace Chunk

/-- The instructions that calls append, in the order of the calls. -/
def emissions (chunk : Chunk) : List Edit → List Emission
  | [] => []
  | edit :: edits => (edit.emission? chunk).toList ++ (chunk.apply edit).emissions edits

/-! ## Chunks that consist of emissions -/

/-- The constant that came with an emission is the one that its instruction loads from `chunk`. -/
def Carries (chunk : Chunk) (emission : Emission) : Prop :=
  ∀ value, emission.carried = some value →
    ∃ index, emission.instruction = .constant index ∧ chunk.constant? index = some value

/-- Code and lines are those of the emissions and nothing else, and every constant that came with an
emission is in its place. -/
structure Encodes (chunk : Chunk) (emitted : List Emission) : Prop where
  code : chunk.code.toList = emitted.flatMap fun emission => emission.instruction.encode.bytes
  lines : chunk.lines.toList = emitted.flatMap fun emission =>
    List.replicate emission.instruction.operation.size emission.line
  carries : ∀ emission ∈ emitted, chunk.Carries emission

theorem encodes_empty : (∅ : Chunk).Encodes [] :=
  ⟨rfl, rfl, by simp⟩

theorem Carries.of_extendsTo
    {before after : Chunk} {emission : Emission}
    (carries : before.Carries emission)
    (extended : before.ExtendsTo after) :
    after.Carries emission := by
  intro value isCarried
  obtain ⟨index, isLoad, found⟩ := carries value isCarried
  exact ⟨index, isLoad, extended.constant?_eq found⟩

namespace Encodes

variable {chunk : Chunk} {emitted : List Emission}

theorem addConstant (encodes : chunk.Encodes emitted) (value : Value) :
    (chunk.addConstant value).1.Encodes emitted where
  code := encodes.code
  lines := encodes.lines
  carries := fun emission member =>
    (encodes.carries emission member).of_extendsTo (chunk.extendsTo_addConstant value)

theorem writeInstruction
    (encodes : chunk.Encodes emitted)
    (emission : Emission)
    (carries : chunk.Carries emission) :
    (chunk.writeInstruction emission.instruction emission.line).Encodes
      (emitted ++ [emission]) where
  code := by
    rw [code_writeInstruction, encodes.code, List.flatMap_append, List.flatMap_singleton]
  lines := by
    rw [lines_writeInstruction, encodes.lines, List.flatMap_append, List.flatMap_singleton]
  carries := by
    have extended := chunk.extendsTo_writeInstruction emission.line emission.instruction
    intro other member
    rcases List.mem_append.mp member with isOld | isNew
    · exact (encodes.carries other isOld).of_extendsTo extended
    · rw [List.mem_singleton.mp isNew]
      exact carries.of_extendsTo extended

end Encodes

theorem carries_of_none {chunk : Chunk} {emission : Emission} (nothing : emission.carried = none) :
    chunk.Carries emission := by
  intro value isCarried
  rw [nothing] at isCarried
  cases isCarried

/-- A new pool entry is found under its index as long as one byte holds the index. -/
theorem constant?_addConstant
    (chunk : Chunk) (value : Value)
    (room : chunk.constants.size < maxConstants) :
    (chunk.addConstant value).1.constant? (.ofNat chunk.constants.size) = some value := by
  have index : (UInt8.ofNat chunk.constants.size).toNat = chunk.constants.size :=
    UInt8.toNat_ofNat_of_lt' room
  simp only [constant?, index, Chunk.addConstant, Array.getElem?_push_size]

/-- Every whole call keeps a chunk a sequence of emissions, with its own one at the end. -/
theorem Encodes.apply
    {chunk : Chunk} {emitted : List Emission} {edit : Edit}
    (encodes : chunk.Encodes emitted)
    (whole : edit.isWhole = true) :
    (chunk.apply edit).Encodes (emitted ++ (edit.emission? chunk).toList) := by
  cases edit with
  | write byte line => cases whole
  | writeOperation operation line =>
      -- An operation without operands is written as its instruction is.
      cases operation with
      | constant => cases whole
      | negate => exact encodes.writeInstruction ⟨.negate, line, none⟩ (carries_of_none rfl)
      | ret => exact encodes.writeInstruction ⟨.ret, line, none⟩ (carries_of_none rfl)
  | writeInstruction instruction line =>
      exact encodes.writeInstruction ⟨instruction, line, none⟩ (carries_of_none rfl)
  | addConstant value =>
      rw [Edit.emission?, Option.toList_none, List.append_nil]
      exact encodes.addConstant value
  | writeConstant value line =>
      by_cases room : chunk.constants.size < maxConstants
      · rw [Chunk.apply, Edit.emission?, chunk.writeConstant_of_lt value line room]
        apply (encodes.addConstant value).writeInstruction
          ⟨.constant (.ofNat chunk.constants.size), line, some value⟩
        intro carried isCarried
        cases isCarried
        exact ⟨_, rfl, chunk.constant?_addConstant value room⟩
      · rw [Chunk.apply, Edit.emission?, chunk.writeConstant_of_le value line (Nat.not_lt.mp room),
          Option.toList_none, List.append_nil]
        exact encodes

theorem Encodes.replay
    {chunk : Chunk} {emitted : List Emission} {edits : List Edit}
    (encodes : chunk.Encodes emitted)
    (whole : ∀ edit ∈ edits, edit.isWhole = true) :
    (chunk.replay edits).Encodes (emitted ++ chunk.emissions edits) := by
  induction edits generalizing chunk emitted with
  | nil =>
      rw [emissions, List.append_nil]
      exact encodes
  | cons edit edits inductionHypothesis =>
      have first := encodes.apply (whole edit (List.mem_cons_self ..))
      rw [emissions, ← List.append_assoc]
      apply inductionHypothesis first
      intro other member
      exact whole other (List.mem_cons_of_mem _ member)

/-! ## Their listings -/

/-- A listing shows an emitted instruction with the line and the constant that it has.  The other
bytes of the instruction are on this line as well. -/
structure Shows (chunk : Chunk) (emission : Emission) (listing : Listing) : Prop where
  decoded : listing.decoded = .ok emission.instruction
  line : listing.line = some emission.line
  onLine : ∀ position < emission.instruction.operation.size,
    chunk.line? (listing.offset + position) = some emission.line
  constant : listing.constant = emission.constant chunk

theorem shows_listingAt
    {chunk : Chunk} {emission : Emission} {offset : Nat}
    (decoded : Instruction.decode chunk.code offset = .ok emission.instruction)
    (onLine : ∀ position < emission.instruction.operation.size,
      chunk.line? (offset + position) = some emission.line)
    (carries : chunk.Carries emission) :
    chunk.Shows emission (chunk.listingAt offset) where
  decoded := decoded
  line := onLine 0 emission.instruction.operation.size_pos
  onLine := onLine
  constant := by
    obtain ⟨instruction, _, carried⟩ := emission
    simp only [listingAt, decoded, Emission.constant]
    cases carried with
    | some value =>
        obtain ⟨index, isLoad, found⟩ := carries value rfl
        simp only at isLoad
        simp only [isLoad, found]
    | none => cases instruction <;> rfl

theorem line?_of_drop_eq
    {chunk : Chunk} {offset position count line : Nat} {rest : List Nat}
    (lines : chunk.lines.toList.drop offset = List.replicate count line ++ rest)
    (inRun : position < count) :
    chunk.line? (offset + position) = some line := by
  have inReplicate : position < (List.replicate count line).length := by
    rwa [List.length_replicate]
  rw [line?, ← Array.getElem?_toList, ← List.getElem?_drop, lines,
    List.getElem?_append_left inReplicate, List.getElem?_replicate_of_lt inRun]

/-- Where code and lines are those of emissions up to the end, the listings show these. -/
theorem forall₂_shows_listingsFrom
    {chunk : Chunk} {emitted : List Emission} {offset : Nat}
    (code : chunk.code.toList.drop offset =
      emitted.flatMap fun emission => emission.instruction.encode.bytes)
    (lines : chunk.lines.toList.drop offset = emitted.flatMap fun emission =>
      List.replicate emission.instruction.operation.size emission.line)
    (carries : ∀ emission ∈ emitted, chunk.Carries emission) :
    List.Forall₂ chunk.Shows emitted (chunk.listingsFrom offset) := by
  induction emitted generalizing offset with
  | nil =>
      have outside : chunk.code.toList.length ≤ offset := List.drop_eq_nil_iff.mp code
      rw [chunk.listingsFrom_of_le outside]
      exact .nil
  | cons emission emitted inductionHypothesis =>
      rw [List.flatMap_cons] at code lines
      have decoded := decode_of_drop code
      have fits : _ ≤ chunk.size := size_le_of_decode decoded
      have sizePos := emission.instruction.operation.size_pos
      have inside : offset < chunk.size := by omega
      have next : chunk.nextOffset offset = offset + emission.instruction.operation.size := by
        rw [nextOffset, decoded]
      have onLine : ∀ position < emission.instruction.operation.size,
          chunk.line? (offset + position) = some emission.line := by
        intro position inInstruction
        exact line?_of_drop_eq lines inInstruction
      rw [chunk.listingsFrom_of_lt inside, next]
      apply List.Forall₂.cons
      · exact shows_listingAt decoded onLine (carries emission (List.mem_cons_self ..))
      · apply inductionHypothesis
        · rw [drop_of_decode decoded] at code
          exact List.append_cancel_left code
        · rw [← List.drop_drop, lines, List.drop_left' List.length_replicate]
        · intro other member
          exact carries other (List.mem_cons_of_mem _ member)

theorem Encodes.forall₂_shows
    {chunk : Chunk} {emitted : List Emission}
    (encodes : chunk.Encodes emitted) :
    List.Forall₂ chunk.Shows emitted (chunk.listingsFrom 0) :=
  forall₂_shows_listingsFrom encodes.code encodes.lines encodes.carries

theorem Encodes.exists_shows
    {chunk : Chunk} {emitted : List Emission} {listing : Listing}
    (encodes : chunk.Encodes emitted)
    (listed : listing ∈ chunk.listingsFrom 0) :
    ∃ emission, chunk.Shows emission listing := by
  have shown := encodes.forall₂_shows
  generalize chunk.listingsFrom 0 = listings at shown listed
  clear encodes
  induction shown with
  | nil => cases listed
  | cons shows _ inductionHypothesis =>
      rcases List.mem_cons.mp listed with rfl | inRest
      · exact ⟨_, shows⟩
      · exact inductionHypothesis inRest

/-- The disassembly of a chunk that whole calls have made lists the instructions that the calls have
emitted, in order, each with the line of its call.  A constant that came with its instruction is
listed as it was passed; another load shows the entry that it finds in the final pool. -/
theorem disassemble_shows_emissions
    (edits : List Edit)
    (whole : ∀ edit ∈ edits, edit.isWhole = true)
    (name : String) :
    List.Forall₂ ((∅ : Chunk).replay edits).Shows ((∅ : Chunk).emissions edits)
      (((∅ : Chunk).replay edits).disassemble name).listings :=
  (encodes_empty.replay whole).forall₂_shows

/-- Calls around the point where the pool is full: the first constant that is written takes the last
index, and the second is refused. -/
def fullPool : List Edit :=
  List.replicate 255 (.addConstant .nil) ++
    [ .writeConstant (.bool true) 7, .writeConstant .nil 8, .addConstant .nil,
      .writeInstruction (.constant 0) 9, .writeOperation .ret 9 ]

theorem fullPool_shown :
    let emitted : List Emission :=
      [⟨.constant 255, 7, some (.bool true)⟩, ⟨.constant 0, 9, none⟩, ⟨.ret, 9, none⟩]
    (∀ edit ∈ fullPool, edit.isWhole = true) ∧
      ((∅ : Chunk).replay fullPool).constants.size = 257 ∧
      List.Forall₂ ((∅ : Chunk).replay fullPool).Shows emitted
        (((∅ : Chunk).replay fullPool).disassemble "full pool").listings := by
  intro emitted
  have whole : ∀ edit ∈ fullPool, edit.isWhole = true := by decide +kernel
  have emits : (∅ : Chunk).emissions fullPool = emitted := by decide +kernel
  refine ⟨whole, by decide +kernel, ?_⟩
  rw [← emits]
  exact disassemble_shows_emissions fullPool whole "full pool"

end Chunk

end StackMachine
