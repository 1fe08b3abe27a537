import Mathlib.Control.Monad.Basic
import StackMachine.Instruction.Decode

/-!
Contract: what stands at an offset of code, and code read one instruction after the other.

Owns:
- `ReadsAs`, the conditions on the bytes at an offset for each outcome of decoding there;
- the bytes that a decoded instruction occupies;
- `Decodes`, the reading of consecutive instructions from one offset to another.

Does not own: what the instructions do, or how code that does not decode is passed over.
-/

set_option autoImplicit false

namespace StackMachine

namespace Operation

theorem ofCode_eq_error_iff (byte : UInt8) :
    (∃ unknown, ofCode byte = .error unknown) ↔ 2 < byte := by
  constructor
  · intro refusal
    obtain ⟨unknown, refused⟩ := refusal
    unfold ofCode at refused
    split at refused
    · cases refused
    · split at refused
      · cases refused
      · split at refused
        · cases refused
        · grind
  · intro above
    refine ⟨.code byte, ?_⟩
    unfold ofCode
    rw [if_neg (by grind), if_neg (by grind), if_neg (by grind)]

end Operation

/-! ## One instruction -/

/-- The bytes of `code` at `offset` are such that decoding there ends in the given outcome. -/
inductive ReadsAs (code : Array UInt8) (offset : Nat) : Except DecodeError Instruction → Prop where
  | endOfCode (past : code.size ≤ offset) :
      ReadsAs code offset (.error (.endOfCode offset))
  | unknownOpcode {byte : UInt8}
      (here : code[offset]? = some byte)
      (unknown : 2 < byte) :
      ReadsAs code offset (.error (.unknownOpcode offset byte))
  | missingOperand
      (here : code[offset]? = some Operation.constant.code)
      (last : offset + 1 = code.size) :
      ReadsAs code offset (.error (.missingOperand offset .constant))
  | constant {index : UInt8}
      (here : code[offset]? = some Operation.constant.code)
      (operand : code[offset + 1]? = some index) :
      ReadsAs code offset (.ok (.constant index))
  | negate (here : code[offset]? = some Operation.negate.code) :
      ReadsAs code offset (.ok .negate)
  | ret (here : code[offset]? = some Operation.ret.code) :
      ReadsAs code offset (.ok .ret)

theorem lt_size_of_getElem? {code : Array UInt8} {offset : Nat} {byte : UInt8}
    (here : code[offset]? = some byte) :
    offset < code.size :=
  (Array.getElem?_eq_some_iff.mp here).1

theorem ReadsAs.decode_eq
    {code : Array UInt8} {offset : Nat} {outcome : Except DecodeError Instruction}
    (reads : ReadsAs code offset outcome) :
    Instruction.decode code offset = outcome := by
  cases reads with
  | endOfCode past =>
      unfold Instruction.decode
      rw [Array.getElem?_eq_none past]
  | unknownOpcode here unknown =>
      obtain ⟨refusal, refused⟩ := (Operation.ofCode_eq_error_iff _).mpr unknown
      simp only [Instruction.decode, here, refused]
  | missingOperand here last =>
      have noOperand : code[offset + 1]? = none := Array.getElem?_eq_none (by omega)
      simp only [Instruction.decode, here, Operation.ofCode_code, noOperand]
      rfl
  | constant here operand =>
      simp only [Instruction.decode, here, Operation.ofCode_code, operand]
      rfl
  | negate here =>
      simp only [Instruction.decode, here, Operation.ofCode_code]
      rfl
  | ret here =>
      simp only [Instruction.decode, here, Operation.ofCode_code]
      rfl

/-- Some outcome is read at every offset. -/
theorem exists_readsAs (code : Array UInt8) (offset : Nat) :
    ∃ outcome, ReadsAs code offset outcome := by
  cases here : code[offset]? with
  | none => exact ⟨_, .endOfCode (Array.getElem?_eq_none_iff.mp here)⟩
  | some byte =>
      cases read : Operation.ofCode byte with
      | error refusal =>
          exact ⟨_, .unknownOpcode here ((Operation.ofCode_eq_error_iff byte).mp ⟨refusal, read⟩)⟩
      | ok operation =>
          rw [(Operation.ofCode_eq_ok_iff byte operation).mp read] at here
          cases operation with
          | constant =>
              cases operand : code[offset + 1]? with
              | none =>
                  have inside := lt_size_of_getElem? here
                  have outside := Array.getElem?_eq_none_iff.mp operand
                  exact ⟨_, .missingOperand here (by omega)⟩
              | some index => exact ⟨_, .constant here operand⟩
          | negate => exact ⟨_, .negate here⟩
          | ret => exact ⟨_, .ret here⟩

theorem decode_eq_iff
    {code : Array UInt8} {offset : Nat} {outcome : Except DecodeError Instruction} :
    Instruction.decode code offset = outcome ↔ ReadsAs code offset outcome := by
  refine ⟨?_, ReadsAs.decode_eq⟩
  intro decoded
  obtain ⟨read, reads⟩ := exists_readsAs code offset
  rw [← decoded, reads.decode_eq]
  exact reads

theorem readsAs_decode (code : Array UInt8) (offset : Nat) :
    ReadsAs code offset (Instruction.decode code offset) :=
  decode_eq_iff.mp rfl

theorem drop_of_getElem? {α : Type} {entries : Array α} {position : Nat} {entry : α}
    (here : entries[position]? = some entry) :
    entries.toList.drop position = entry :: entries.toList.drop (position + 1) := by
  obtain ⟨inside, atOffset⟩ := Array.getElem?_eq_some_iff.mp here
  rw [List.drop_eq_getElem_cons (by simpa using inside), Array.getElem_toList, atOffset]

/-- A decoded instruction occupies its encoding: the code from `offset` on starts with it. -/
theorem drop_of_decode
    {code : Array UInt8} {offset : Nat} {instruction : Instruction}
    (decoded : Instruction.decode code offset = .ok instruction) :
    code.toList.drop offset =
      instruction.encode.bytes ++ code.toList.drop (offset + instruction.operation.size) := by
  cases decode_eq_iff.mp decoded with
  | constant here operand =>
      rw [drop_of_getElem? here, drop_of_getElem? operand]
      rfl
  | negate here => exact drop_of_getElem? here
  | ret here => exact drop_of_getElem? here

theorem getElem?_of_drop {code : Array UInt8} {offset : Nat} {byte : UInt8} {rest : List UInt8}
    (split : code.toList.drop offset = byte :: rest) :
    code[offset]? = some byte ∧ code.toList.drop (offset + 1) = rest := by
  rw [← List.drop_drop, split, ← Array.getElem?_toList, ← List.head?_drop, split]
  exact ⟨rfl, rfl⟩

/-- Where the encoding of an instruction stands, that instruction is decoded. -/
theorem decode_of_drop
    {code : Array UInt8} {offset : Nat} {instruction : Instruction} {rest : List UInt8}
    (split : code.toList.drop offset = instruction.encode.bytes ++ rest) :
    Instruction.decode code offset = .ok instruction := by
  apply ReadsAs.decode_eq
  cases instruction with
  | constant index =>
      obtain ⟨here, others⟩ := getElem?_of_drop split
      exact .constant here (getElem?_of_drop others).1
  | negate => exact .negate (getElem?_of_drop split).1
  | ret => exact .ret (getElem?_of_drop split).1

theorem size_le_of_decode
    {code : Array UInt8} {offset : Nat} {instruction : Instruction}
    (decoded : Instruction.decode code offset = .ok instruction) :
    offset + instruction.operation.size ≤ code.size := by
  cases decode_eq_iff.mp decoded with
  | constant _ operand => exact lt_size_of_getElem? operand
  | negate here => exact lt_size_of_getElem? here
  | ret here => exact lt_size_of_getElem? here

/-! ## Consecutive instructions -/

/-- The instructions stand in `code` one after the other.  The first of them starts at `start`,
and `stop` is the offset after the last. -/
def Decodes (code : Array UInt8) : Nat → List Instruction → Nat → Prop
  | start, [], stop => start = stop
  | start, instruction :: rest, stop =>
      Instruction.decode code start = .ok instruction ∧
        Decodes code (start + instruction.operation.size) rest stop

instance decidableDecodes (code : Array UInt8) :
    (start : Nat) → (instructions : List Instruction) → (stop : Nat) →
      Decidable (Decodes code start instructions stop)
  | start, [], stop => inferInstanceAs (Decidable (start = stop))
  | start, instruction :: rest, stop =>
      have := decidableDecodes code (start + instruction.operation.size) rest stop
      inferInstanceAs (Decidable (_ ∧ _))

theorem decodes_append_iff
    (code : Array UInt8) (start stop : Nat) (first second : List Instruction) :
    Decodes code start (first ++ second) stop ↔
      ∃ middle, Decodes code start first middle ∧ Decodes code middle second stop := by
  induction first generalizing start with
  | nil => simp [Decodes]
  | cons instruction rest inductionHypothesis =>
      simp only [List.cons_append, Decodes, inductionHypothesis]
      constructor
      · intro decodes
        obtain ⟨decoded, middle, others, tail⟩ := decodes
        exact ⟨middle, ⟨decoded, others⟩, tail⟩
      · intro decodes
        obtain ⟨middle, ⟨decoded, others⟩, tail⟩ := decodes
        exact ⟨decoded, middle, others, tail⟩

theorem Decodes.le_size
    {code : Array UInt8} {start stop : Nat} {instructions : List Instruction}
    (decodes : Decodes code start instructions stop)
    (startLe : start ≤ code.size) :
    stop ≤ code.size := by
  induction instructions generalizing start with
  | nil =>
      cases decodes
      exact startLe
  | cons instruction rest inductionHypothesis =>
      obtain ⟨decoded, others⟩ := decodes
      exact inductionHypothesis others (size_le_of_decode decoded)

end StackMachine
