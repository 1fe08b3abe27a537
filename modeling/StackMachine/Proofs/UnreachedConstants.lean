import StackMachine.Machine.Trace
import StackMachine.Proofs.Tiling
import StackMachine.Proofs.Walk

/-!
Contract: constants that no instruction can name have no effect.

A constant can be added to a pool of any size, but an instruction names it by one byte.  All entries
behind the first `maxConstants` are therefore out of reach, for the machine as well as for listings,
and may be left out.  A pool that goes as far as instructions reach has a constant for every one of
them, so its size is never reported either.

Owns: `reachable`, a chunk without the constants that no instruction names, and that it runs and is
listed like the whole chunk.
Does not own: how constants come into a pool.
-/

set_option autoImplicit false

namespace StackMachine

namespace Chunk

/-- The chunk with the constants that some instruction can name, and no others. -/
def reachable (chunk : Chunk) : Chunk :=
  { chunk with constants := chunk.constants.take maxConstants }

variable (chunk : Chunk)

@[simp] theorem code_reachable : chunk.reachable.code = chunk.code :=
  rfl

@[simp] theorem size_reachable : chunk.reachable.size = chunk.size :=
  rfl

@[simp] theorem line?_reachable (offset : Nat) : chunk.reachable.line? offset = chunk.line? offset :=
  rfl

@[simp] theorem nextOffset_reachable (offset : Nat) :
    chunk.reachable.nextOffset offset = chunk.nextOffset offset :=
  rfl

theorem toNat_lt_maxConstants (index : UInt8) : index.toNat < maxConstants :=
  index.toNat_lt

/-- No byte names an entry that is left out. -/
@[simp] theorem constant?_reachable (index : UInt8) :
    chunk.reachable.constant? index = chunk.constant? index := by
  have inReach := toNat_lt_maxConstants index
  simp only [constant?, reachable, Array.take_eq_extract, Array.getElem?_extract, Nat.sub_zero,
    Nat.zero_add]
  by_cases inPool : index.toNat < chunk.constants.size
  · rw [if_pos (Nat.lt_min.mpr ⟨inReach, inPool⟩)]
  · rw [if_neg (by omega), Array.getElem?_eq_none (Nat.not_lt.mp inPool)]

/-- A pool that goes as far as instructions reach has an entry for each of them. -/
theorem exists_constant?_of_full
    {chunk : Chunk}
    (full : maxConstants ≤ chunk.constants.size)
    (index : UInt8) :
    ∃ value, chunk.constant? index = some value := by
  have inPool : index.toNat < chunk.constants.size :=
    Nat.lt_of_lt_of_le (toNat_lt_maxConstants index) full
  exact ⟨_, Array.getElem?_eq_getElem inPool⟩

/-! ## Listings -/

@[simp] theorem listingAt_reachable (offset : Nat) :
    chunk.reachable.listingAt offset = chunk.listingAt offset := by
  simp only [listingAt, code_reachable, line?_reachable, constant?_reachable]

theorem listingsFrom_reachable (offset : Nat) :
    chunk.reachable.listingsFrom offset = chunk.listingsFrom offset := by
  fun_induction listingsFrom chunk offset with
  | case1 offset inside inductionHypothesis =>
      rw [listingsFrom_of_lt _ (show offset < chunk.reachable.size from inside),
        listingAt_reachable, nextOffset_reachable, inductionHypothesis]
  | case2 offset outside =>
      exact listingsFrom_of_le _ (show chunk.reachable.size ≤ offset from Nat.not_lt.mp outside)

end Chunk

theorem Blocked.poolSize_le_index
    {chunk : Chunk} {limit offset poolSize : Nat} {stack : List Value} {index : UInt8}
    (blocked : Blocked chunk limit offset stack (.constantIndex index poolSize)) :
    chunk.constants.size ≤ index.toNat := by
  cases blocked with
  | refused _ refusal =>
      cases refusal with
      | constantIndex outside => exact outside

namespace Machine

variable {chunk : Chunk}

/-! ## Steps and runs -/

theorem fetchInstruction_reachable : fetchInstruction chunk.reachable = fetchInstruction chunk :=
  rfl

/-- The size of the pool shows only in the fault of a constant that is not found. -/
theorem execute_reachable
    (full : maxConstants ≤ chunk.constants.size)
    (instruction : Instruction) :
    execute chunk.reachable instruction = execute chunk instruction := by
  cases instruction with
  | constant index =>
      obtain ⟨value, found⟩ := Chunk.exists_constant?_of_full full index
      simp only [execute, Chunk.constant?_reachable, found]
  | negate => rfl
  | ret => rfl

theorem step_reachable (full : maxConstants ≤ chunk.constants.size) :
    step chunk.reachable = step chunk := by
  simp only [step, fetchInstruction_reachable, execute_reachable full]

theorem run_reachable (full : maxConstants ≤ chunk.constants.size) (machine : Machine) :
    machine.run chunk.reachable = machine.run chunk := by
  -- Lines are kept as well, so a fault is located at the same line.
  have sameStep := step_reachable full
  fun_induction run machine chunk with
  | case1 machine fault after stepped =>
      rw [← sameStep] at stepped
      exact run_of_error stepped
  | case2 machine after stepped =>
      rw [← sameStep] at stepped
      exact run_of_halt stepped
  | case3 machine after stepped _ rest inductionHypothesis =>
      rw [← sameStep] at stepped
      rw [run_of_next stepped, inductionHypothesis]

theorem interpret_reachable (full : maxConstants ≤ chunk.constants.size) (machine : Machine) :
    machine.interpret chunk.reachable = machine.interpret chunk := by
  simp only [interpret, run_reachable full]

theorem traceEntry_reachable : traceEntry chunk.reachable = traceEntry chunk := by
  funext machine
  simp only [traceEntry, Chunk.size_reachable, Chunk.listingAt_reachable]

theorem trace_reachable (interpretation : Interpretation) :
    interpretation.trace chunk.reachable = interpretation.trace chunk := by
  show _ ++ String.join (interpretation.starts.map (traceEntry chunk.reachable)) =
    _ ++ String.join (interpretation.starts.map (traceEntry chunk))
  rw [traceEntry_reachable, Chunk.size_reachable]

/-- No constant is reported as missing when every index has one. -/
theorem fault_ne_constantIndex_of_full
    {machine : Machine} {error : RuntimeError}
    (full : maxConstants ≤ chunk.constants.size)
    (failed : (machine.interpret chunk).result = .error (.runtime error))
    (index : UInt8) (poolSize : Nat) :
    error.fault ≠ .constantIndex index poolSize := by
  intro isMissing
  obtain ⟨_, last, _, blocked, _⟩ := exists_blocked_of_interpret failed
  rw [isMissing] at blocked
  have outside := blocked.poolSize_le_index
  have inReach := Chunk.toNat_lt_maxConstants index
  omega

/-- A chunk whose pool goes as far as instructions reach is interpreted, traced and listed as if the
pool ended there, and neither form of it lacks a constant. -/
theorem interpret_ignores_unreached_constants
    (machine : Machine)
    (chunk : Chunk)
    (full : maxConstants ≤ chunk.constants.size) :
    machine.interpret chunk.reachable = machine.interpret chunk ∧
    (machine.interpret chunk.reachable).trace chunk.reachable =
      (machine.interpret chunk).trace chunk ∧
    (∀ name, chunk.reachable.disassemble name = chunk.disassemble name) ∧
    ∀ error index poolSize,
      (machine.interpret chunk).result = .error (.runtime error) ∨
          (machine.interpret chunk.reachable).result = .error (.runtime error) →
        error.fault ≠ .constantIndex index poolSize := by
  have same := interpret_reachable full machine
  refine ⟨same, ?_, ?_, ?_⟩
  · rw [same, trace_reachable]
  · intro name
    simp only [Chunk.disassemble, Chunk.listingsFrom_reachable]
  · intro error index poolSize failed
    rw [same, or_self] at failed
    exact fault_ne_constantIndex_of_full full failed index poolSize

/-- Loads of the last constant in reach and of one whose kind does not suit the negation after it.
The pool goes on behind the reach of any load. -/
def overfullChunk : Chunk where
  code := #[0, 255, 1, 0, 254, 1]
  lines := #[3, 3, 3, 4, 4, 4]
  constants :=
    List.toArray <|
      List.replicate 255 .nil ++ [.number (.ofBits 0x3ff3333333333333), .bool true]

theorem overfullChunk_runs_alike :
    let machine : Machine := { }
    let cut := overfullChunk.reachable
    let error : RuntimeError :=
      { fault := .operandKind .negate .nil, offset := 5, line := some 4 }
    maxConstants ≤ overfullChunk.constants.size ∧
      overfullChunk.constants.size = 257 ∧
      machine.interpret cut = machine.interpret overfullChunk ∧
      (machine.interpret cut).trace cut = (machine.interpret overfullChunk).trace overfullChunk ∧
      cut.disassemble "full" = overfullChunk.disassemble "full" ∧
      (machine.interpret overfullChunk).result = .error (.runtime error) ∧
      error.fault ≠ .constantIndex 254 257 := by
  intro machine cut error
  have full : maxConstants ≤ overfullChunk.constants.size := by decide +kernel
  have failed : (machine.interpret overfullChunk).result = .error (.runtime error) := by
    decide +kernel
  obtain ⟨same, traced, listed, neverMissing⟩ :=
    interpret_ignores_unreached_constants machine overfullChunk full
  exact ⟨full, by decide +kernel, same, traced, listed "full", failed,
    neverMissing error 254 257 (.inl failed)⟩

end Machine

end StackMachine
