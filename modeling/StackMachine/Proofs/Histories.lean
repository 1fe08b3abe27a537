import StackMachine.Proofs.Emission

/-!
Contract: whole histories of a chunk, with clearing among the calls.

Between two clearings a chunk only grows.  A constant that has been written with its load is therefore
found under the index that the caller was given, whatever is called in between.

Owns:
- `Call`, any call that changes a chunk, and `performAll`, what a sequence of them makes of it;
- `Stores`, what a caller can rely on once a constant has been written;
- `Honours`, the promises of every call, and that each call of every history keeps them.

Does not own: what the written code does.
-/

set_option autoImplicit false

namespace StackMachine.Chunk

/-- A call that changes a chunk. -/
inductive Call where
  | append (edit : Edit)
  | clear
deriving DecidableEq, Repr

/-- The chunk after a call. -/
def perform (chunk : Chunk) : Call → Chunk
  | .append edit => chunk.apply edit
  | .clear => chunk.clear

/-- The chunk after all calls, made in order. -/
def performAll (chunk : Chunk) (calls : List Call) : Chunk :=
  calls.foldl perform chunk

@[simp] theorem performAll_append (chunk : Chunk) (first second : List Call) :
    chunk.performAll (first ++ second) = (chunk.performAll first).performAll second :=
  List.foldl_append

/-! ## Growth between clearings -/

theorem extendsTo_perform (chunk : Chunk) {call : Call} (notClear : call ≠ .clear) :
    chunk.ExtendsTo (chunk.perform call) := by
  cases call with
  | append edit => exact chunk.extendsTo_apply edit
  | clear => contradiction

theorem extendsTo_performAll (chunk : Chunk) {calls : List Call} (noClear : .clear ∉ calls) :
    chunk.ExtendsTo (chunk.performAll calls) := by
  induction calls generalizing chunk with
  | nil => exact .refl chunk
  | cons call calls inductionHypothesis =>
      have notClear : call ≠ .clear := (List.ne_of_not_mem_cons noClear).symm
      have noClearAfter : .clear ∉ calls := List.not_mem_of_not_mem_cons noClear
      exact (chunk.extendsTo_perform notClear).trans
        (inductionHypothesis (chunk.perform call) noClearAfter)

/-! ## Constants that are written with their loads -/

/-- Writing `value` has turned `before` into `after` and given out `index`.  The index is the number
of constants before, without loss to its one byte, and it names the value until the chunk is
cleared. -/
structure Stores
    (before : Chunk)
    (value : Value)
    (line : Nat)
    (after : Chunk)
    (index : UInt8) : Prop where
  index_eq : index.toNat = before.constants.size
  code : after.code.toList = before.code.toList ++ [Operation.constant.code, index]
  lines : after.lines.toList = before.lines.toList ++ [line, line]
  constants : after.constants.toList = before.constants.toList ++ [value]
  kept : ∀ later, .clear ∉ later → (after.performAll later).constant? index = some value

section WriteConstant

variable {before : Chunk} {value : Value} {line : Nat}

theorem writeConstant_refused_iff :
    (∃ error, (before.writeConstant value line).2 = .error error) ↔
      maxConstants ≤ before.constants.size := by
  constructor
  · intro refusal
    obtain ⟨error, refused⟩ := refusal
    apply Nat.not_lt.mp
    intro room
    rw [before.writeConstant_of_lt value line room] at refused
    cases refused
  · intro full
    rw [before.writeConstant_of_le value line full]
    exact ⟨_, rfl⟩

/-- A call that is refused returns the chunk as it was. -/
theorem writeConstant_of_refused {error : ChunkError}
    (refused : (before.writeConstant value line).2 = .error error) :
    (before.writeConstant value line).1 = before := by
  have full : maxConstants ≤ before.constants.size := writeConstant_refused_iff.mp ⟨error, refused⟩
  rw [before.writeConstant_of_le value line full]

theorem stores_of_written {index : UInt8}
    (written : (before.writeConstant value line).2 = .ok index) :
    before.Stores value line (before.writeConstant value line).1 index := by
  have room : before.constants.size < maxConstants := by
    apply Nat.not_le.mp
    intro full
    rw [before.writeConstant_of_le value line full] at written
    cases written
  rw [before.writeConstant_of_lt value line room] at written ⊢
  cases written
  have found := before.constant?_addConstant value room
  -- A pool with room holds fewer constants than there are bytes, so the index is exact.
  refine ⟨UInt8.toNat_ofNat_of_lt' room, ?_, ?_, ?_, ?_⟩
  · rw [code_writeInstruction, code_addConstant]
    rfl
  · rw [lines_writeInstruction, lines_addConstant]
    rfl
  · rw [constants_writeInstruction, constants_addConstant]
  · intro later noClear
    have loaded := extendsTo_writeInstruction (before.addConstant value).1 line
      (.constant (.ofNat before.constants.size))
    exact (loaded.trans (extendsTo_performAll _ noClear)).constant?_eq found

end WriteConstant

/-! ## What every call promises -/

/-- `call` has turned `before` into `after` as its caller may expect. -/
structure Honours (before : Chunk) (call : Call) (after : Chunk) : Prop where
  aligned : after.lines.size = after.code.size
  grown : call ≠ .clear → before.ExtendsTo after
  refused_iff : ∀ value line, call = .append (.writeConstant value line) →
    ((∃ error, (before.writeConstant value line).2 = .error error) ↔
      256 ≤ before.constants.size)
  unchanged : ∀ value line error, call = .append (.writeConstant value line) →
    (before.writeConstant value line).2 = .error error → after = before
  stored : ∀ value line index, call = .append (.writeConstant value line) →
    (before.writeConstant value line).2 = .ok index →
      after = (before.writeConstant value line).1 ∧ before.Stores value line after index

theorem honours_perform (before : Chunk) (call : Call) :
    before.Honours call (before.perform call) where
  aligned := (before.perform call).lines_size
  grown := before.extendsTo_perform
  refused_iff := by
    intro value line isWrite
    exact writeConstant_refused_iff
  unchanged := by
    intro value line error isWrite refused
    rw [isWrite]
    exact writeConstant_of_refused refused
  stored := by
    intro value line index isWrite written
    rw [isWrite]
    exact ⟨rfl, stores_of_written written⟩

/-- Every call of every history from an empty chunk keeps its promises.  In particular lines and code
have one length throughout, and a constant that was written stays under its index up to the next
clearing. -/
theorem history_honours (earlier : List Call) (call : Call) :
    ((∅ : Chunk).performAll earlier).Honours call
      ((∅ : Chunk).performAll (earlier ++ [call])) := by
  rw [performAll_append]
  exact honours_perform ((∅ : Chunk).performAll earlier) call

example :
    ((∅ : Chunk).performAll
      [ .append (.writeConstant .nil 1), .clear, .append (.addConstant .nil),
        .append (.writeConstant (.bool true) 2) ]).constant? 1 = some (.bool true) := by
  decide

end StackMachine.Chunk
