import StackMachine.Proofs.Walk

/-!
Contract: what an interpretation that fails reports.

Owns:
- `Reports`, the exact fault, offset and line of the place where a machine cannot go on;
- that a failed interpretation reports the first such place, and the state it leaves.

Does not own: when an interpretation fails.
-/

set_option autoImplicit false

namespace StackMachine

/-- `error` says why a machine with `stack` cannot go on at the offset that it names.  The fault is
the only one that applies there, and a place after the last byte is blamed on the last line. -/
structure Reports (chunk : Chunk) (limit : Nat) (stack : List Value) (error : RuntimeError) :
    Prop where
  inCode : error.offset ≤ chunk.size
  fault_iff : ∀ fault, error.fault = fault ↔ Blocked chunk limit error.offset stack fault
  lineInside : error.offset < chunk.size → error.line = chunk.line? error.offset
  lineAtEnd : error.offset = chunk.size → error.line = chunk.lines.back?
  noLine_iff : error.line = none ↔ chunk.size = 0

/-! ## Lines -/

namespace Chunk

variable (chunk : Chunk) (offset : Nat) (fault : Fault)

theorem locate_line_inside (inside : offset < chunk.size) :
    (chunk.locate offset fault).line = chunk.line? offset := by
  have recorded : chunk.line? offset ≠ none := by
    rw [Ne, chunk.line?_eq_none_iff]
    omega
  obtain ⟨line, found⟩ := Option.ne_none_iff_exists'.mp recorded
  simp only [locate, found, Option.some_or]

theorem locate_line_outside (outside : chunk.size ≤ offset) :
    (chunk.locate offset fault).line = chunk.lines.back? := by
  have missing := (chunk.line?_eq_none_iff offset).mpr outside
  simp only [locate, missing, Option.none_or]

theorem locate_line_eq_none_iff :
    (chunk.locate offset fault).line = none ↔ chunk.size = 0 := by
  rw [locate, Option.or_eq_none_iff, chunk.line?_eq_none_iff, Array.back?_eq_none_iff,
    ← Array.size_eq_zero_iff, chunk.lines_size]
  constructor
  · intro missing
    exact missing.2
  · intro empty
    exact ⟨by omega, empty⟩

end Chunk

/-! ## Faults -/

theorem reports_locate
    {chunk : Chunk} {limit offset : Nat} {stack : List Value} {fault : Fault}
    (inCode : offset ≤ chunk.size)
    (blocked : Blocked chunk limit offset stack fault) :
    Reports chunk limit stack (chunk.locate offset fault) where
  inCode := inCode
  fault_iff := by
    intro other
    constructor
    · intro same
      cases same
      exact blocked
    · exact blocked.unique
  lineInside := chunk.locate_line_inside offset fault
  lineAtEnd := fun atEnd => chunk.locate_line_outside offset fault (Nat.le_of_eq atEnd.symm)
  noLine_iff := chunk.locate_line_eq_none_iff offset fault

namespace Machine

/-- An interpretation that does not succeed executes some instructions, none of them a `Return`,
and reports why it cannot go on after them.  Only the cursor shows how far it came. -/
theorem interpret_reports_first_blocked
    (machine : Machine) (chunk : Chunk)
    (failed : (machine.interpret chunk).result ≠ .ok ()) :
    ∃ steps last error,
      Walk chunk machine.reset steps last ∧
      (machine.interpret chunk).starts = steps.map Prod.fst ++ [last] ∧
      (machine.interpret chunk).result = .error (.runtime error) ∧
      Decodes chunk.code 0 (steps.map Prod.snd) error.offset ∧
      .ret ∉ steps.map Prod.snd ∧
      last.cursor = error.offset ∧
      Reports chunk machine.stackLimit last.stack error ∧
      (machine.interpret chunk).machine =
        { cursor := chunk.fetchEnd error.offset
          stack := []
          stackLimit := machine.stackLimit
          residue := [] } := by
  obtain ⟨steps, last, walk, ended⟩ := exists_walk_to_end chunk machine.bounded_reset
  rcases ended with decoded | ⟨fault, blocked⟩
  · rw [interpret_of_ret walk decoded] at failed
    contradiction
  · have interpreted := interpret_of_blocked walk blocked
    have decodes := walk.decodes
    rw [walk.stackLimit_eq] at blocked
    refine ⟨steps, last, chunk.locate last.cursor fault, walk, ?_, ?_, decodes, ?_, rfl, ?_, ?_⟩
    · rw [interpreted]
    · rw [interpreted]
    · exact walk.executesAll.noReturn
    · exact reports_locate (decodes.le_size (Nat.zero_le _)) blocked
    · rw [interpreted]
      rfl

/-- A load that the pool cannot serve, met with a full stack. -/
def unservedLoad : Chunk where
  code := #[0, 0, 0, 5, 2]
  lines := #[7, 7, 8, 9, 9]
  constants := #[.bool true]

theorem unservedLoad_reported :
    let machine : Machine := { stackLimit := 1, residue := [.nil] }
    let error : RuntimeError := { fault := .constantIndex 5 1, offset := 2, line := some 8 }
    (machine.interpret unservedLoad).result = .error (.runtime error) ∧
      ∃ steps last,
        Walk unservedLoad machine.reset steps last ∧ last.cursor = 2 ∧
          Reports unservedLoad 1 last.stack error := by
  intro machine error
  have result : (machine.interpret unservedLoad).result = .error (.runtime error) := by
    decide +kernel
  have failed : (machine.interpret unservedLoad).result ≠ .ok () := by
    intro succeeded
    rw [result] at succeeded
    cases succeeded
  obtain ⟨steps, last, reported, walk, _, outcome, _, _, atOffset, reports, _⟩ :=
    interpret_reports_first_blocked machine unservedLoad failed
  rw [result] at outcome
  cases outcome
  exact ⟨result, steps, last, walk, atOffset, reports⟩

end Machine

end StackMachine
