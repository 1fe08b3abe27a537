import StackMachine.Chunk

/-!
Contract: the calls by which a chunk is made, and what they leave in place.

A chunk is made by a sequence of calls, each of which appends bytes, a constant, or both.  What is
in a chunk once stays where it is until the chunk is cleared.

Owns:
- `Edit`, one appending call with its arguments, and `replay`, what a sequence of them makes of a
  chunk;
- what each call appends to code, lines and pool;
- `ExtendsTo`, that a chunk is another one and perhaps more behind it, and that every replay extends
  the chunk it starts from.

Does not own: clearing, or the meaning of what is appended.
-/

set_option autoImplicit false

namespace StackMachine

/-- A call that appends to a chunk. -/
inductive Edit where
  | write (byte : UInt8) (line : Nat)
  | writeOperation (operation : Operation) (line : Nat)
  | writeInstruction (instruction : Instruction) (line : Nat)
  | addConstant (value : Value)
  | writeConstant (value : Value) (line : Nat)
deriving DecidableEq, Repr

namespace Chunk

/-- The chunk after a call. -/
def apply (chunk : Chunk) : Edit → Chunk
  | .write byte line => chunk.write byte line
  | .writeOperation operation line => chunk.writeOperation operation line
  | .writeInstruction instruction line => chunk.writeInstruction instruction line
  | .addConstant value => (chunk.addConstant value).1
  | .writeConstant value line => (chunk.writeConstant value line).1

/-- The chunk after all calls, made in order. -/
def replay (chunk : Chunk) (edits : List Edit) : Chunk :=
  edits.foldl apply chunk

/-! ## What a call appends -/

variable (chunk : Chunk) (value : Value) (line : Nat)

@[simp] theorem code_write (byte : UInt8) :
    (chunk.write byte line).code.toList = chunk.code.toList ++ [byte] := by
  simp [write]

@[simp] theorem lines_write (byte : UInt8) :
    (chunk.write byte line).lines.toList = chunk.lines.toList ++ [line] := by
  simp [write]

/-! Bytes that are written one after another, all on one line. -/

theorem code_foldl_write (bytes : List UInt8) :
    (bytes.foldl (fun written byte => written.write byte line) chunk).code.toList =
      chunk.code.toList ++ bytes := by
  induction bytes generalizing chunk with
  | nil => exact (List.append_nil _).symm
  | cons byte bytes inductionHypothesis =>
      rw [List.foldl_cons, inductionHypothesis, code_write, List.append_assoc,
        List.singleton_append]

theorem lines_foldl_write (bytes : List UInt8) :
    (bytes.foldl (fun written byte => written.write byte line) chunk).lines.toList =
      chunk.lines.toList ++ List.replicate bytes.length line := by
  induction bytes generalizing chunk with
  | nil => exact (List.append_nil _).symm
  | cons byte bytes inductionHypothesis =>
      rw [List.foldl_cons, inductionHypothesis, lines_write, List.append_assoc,
        List.singleton_append, List.length_cons, List.replicate_succ]

theorem constants_foldl_write (bytes : List UInt8) :
    (bytes.foldl (fun written byte => written.write byte line) chunk).constants =
      chunk.constants := by
  induction bytes generalizing chunk with
  | nil => rfl
  | cons byte bytes inductionHypothesis =>
      rw [List.foldl_cons, inductionHypothesis, constants_write]

@[simp] theorem code_writeInstruction (instruction : Instruction) :
    (chunk.writeInstruction instruction line).code.toList =
      chunk.code.toList ++ instruction.encode.bytes :=
  chunk.code_foldl_write line instruction.encode.bytes

@[simp] theorem lines_writeInstruction (instruction : Instruction) :
    (chunk.writeInstruction instruction line).lines.toList =
      chunk.lines.toList ++ List.replicate instruction.operation.size line := by
  rw [writeInstruction, lines_foldl_write, Encoding.length_bytes, Instruction.size_encode]

@[simp] theorem constants_writeInstruction (instruction : Instruction) :
    (chunk.writeInstruction instruction line).constants = chunk.constants :=
  chunk.constants_foldl_write line instruction.encode.bytes

@[simp] theorem code_addConstant : (chunk.addConstant value).1.code = chunk.code :=
  rfl

@[simp] theorem lines_addConstant : (chunk.addConstant value).1.lines = chunk.lines :=
  rfl

@[simp] theorem constants_addConstant :
    (chunk.addConstant value).1.constants.toList = chunk.constants.toList ++ [value] := by
  simp [addConstant]

/-- A constant that some instruction can reach is written with the instruction that loads it. -/
theorem writeConstant_of_lt (room : chunk.constants.size < maxConstants) :
    chunk.writeConstant value line =
      ((chunk.addConstant value).1.writeInstruction
        (.constant (.ofNat chunk.constants.size)) line, .ok (.ofNat chunk.constants.size)) := by
  rw [writeConstant, if_neg (Nat.not_le.mpr room)]
  rfl

theorem writeConstant_of_le (full : maxConstants ≤ chunk.constants.size) :
    chunk.writeConstant value line = (chunk, .error .tooManyConstants) :=
  if_pos full

/-! ## Growth -/

/-- `after` holds all that `before` holds at the same places, and perhaps more behind it. -/
structure ExtendsTo (before after : Chunk) : Prop where
  code : before.code.toList <+: after.code.toList
  lines : before.lines.toList <+: after.lines.toList
  constants : before.constants.toList <+: after.constants.toList

theorem getElem?_eq_of_isPrefix
    {α : Type} {before after : Array α} {position : Nat}
    (isPrefix : before.toList <+: after.toList)
    (inside : position < before.size) :
    after[position]? = before[position]? := by
  obtain ⟨rest, split⟩ := isPrefix
  rw [← Array.getElem?_toList, ← split, List.getElem?_append_left inside, Array.getElem?_toList]

theorem getElem?_of_isPrefix
    {α : Type} {before after : Array α} {position : Nat} {entry : α}
    (isPrefix : before.toList <+: after.toList)
    (here : before[position]? = some entry) :
    after[position]? = some entry := by
  obtain ⟨inside, _⟩ := Array.getElem?_eq_some_iff.mp here
  rw [getElem?_eq_of_isPrefix isPrefix inside, here]

namespace ExtendsTo

variable {before middle after : Chunk}

theorem refl (chunk : Chunk) : chunk.ExtendsTo chunk :=
  ⟨List.prefix_refl _, List.prefix_refl _, List.prefix_refl _⟩

theorem trans (first : before.ExtendsTo middle) (second : middle.ExtendsTo after) :
    before.ExtendsTo after :=
  ⟨first.code.trans second.code, first.lines.trans second.lines,
    first.constants.trans second.constants⟩

theorem size_le (extended : before.ExtendsTo after) : before.size ≤ after.size := by
  have lengths := extended.code.length_le
  rwa [Array.length_toList, Array.length_toList] at lengths

theorem line?_eq {offset : Nat}
    (extended : before.ExtendsTo after)
    (inside : offset < before.size) :
    after.line? offset = before.line? offset := by
  apply getElem?_eq_of_isPrefix extended.lines
  rwa [before.lines_size]

theorem constant?_eq {index : UInt8} {value : Value}
    (extended : before.ExtendsTo after)
    (found : before.constant? index = some value) :
    after.constant? index = some value :=
  getElem?_of_isPrefix extended.constants found

theorem constants_eq
    (extended : before.ExtendsTo after)
    (sameSize : after.constants.size = before.constants.size) :
    after.constants = before.constants := by
  apply Array.toList_inj.mp
  exact (extended.constants.eq_of_length sameSize.symm).symm

theorem code_eq (extended : before.ExtendsTo after) (sameSize : after.size = before.size) :
    after.code = before.code := by
  apply Array.toList_inj.mp
  exact (extended.code.eq_of_length sameSize.symm).symm

/-- As long as no byte is added, no line is. -/
theorem lines_eq (extended : before.ExtendsTo after) (sameCode : after.code = before.code) :
    after.lines = before.lines := by
  have sameSize : before.lines.size = after.lines.size := by
    rw [before.lines_size, after.lines_size, sameCode]
  apply Array.toList_inj.mp
  exact (extended.lines.eq_of_length sameSize).symm

end ExtendsTo

theorem extendsTo_write (byte : UInt8) : chunk.ExtendsTo (chunk.write byte line) where
  code := by
    rw [code_write]
    exact List.prefix_append _ _
  lines := by
    rw [lines_write]
    exact List.prefix_append _ _
  constants := List.prefix_refl _

theorem extendsTo_writeInstruction (instruction : Instruction) :
    chunk.ExtendsTo (chunk.writeInstruction instruction line) where
  code := by
    rw [code_writeInstruction]
    exact List.prefix_append _ _
  lines := by
    rw [lines_writeInstruction]
    exact List.prefix_append _ _
  constants := by
    simp only [constants_writeInstruction, List.prefix_refl]

theorem extendsTo_addConstant : chunk.ExtendsTo (chunk.addConstant value).1 where
  code := List.prefix_refl _
  lines := List.prefix_refl _
  constants := by
    rw [constants_addConstant]
    exact List.prefix_append _ _

/-- No call changes what is there. -/
theorem extendsTo_apply (edit : Edit) : chunk.ExtendsTo (chunk.apply edit) := by
  cases edit with
  | write byte line => exact chunk.extendsTo_write line byte
  | writeOperation operation line => exact chunk.extendsTo_write line operation.code
  | writeInstruction instruction line => exact chunk.extendsTo_writeInstruction line instruction
  | addConstant value => exact chunk.extendsTo_addConstant value
  | writeConstant value line =>
      by_cases room : chunk.constants.size < maxConstants
      · rw [apply, chunk.writeConstant_of_lt value line room]
        apply (chunk.extendsTo_addConstant value).trans
        exact extendsTo_writeInstruction _ line _
      · rw [apply, chunk.writeConstant_of_le value line (Nat.not_lt.mp room)]
        exact .refl chunk

theorem extendsTo_replay (edits : List Edit) : chunk.ExtendsTo (chunk.replay edits) := by
  induction edits generalizing chunk with
  | nil => exact .refl chunk
  | cons edit edits inductionHypothesis =>
      exact (chunk.extendsTo_apply edit).trans (inductionHypothesis (chunk.apply edit))

end Chunk

end StackMachine
