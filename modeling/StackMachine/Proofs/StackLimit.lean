import StackMachine.Proofs.StraightLine

/-!
Contract: what the stack limit can change about an interpretation.

Only loads make the stack deeper, each by one value, so the depth is the number of loads executed so
far.  A limit therefore matters to the first load that exceeds it and to nothing else: a larger one
changes no interpretation that ends before that load or without it.

Owns:
- the depth of the stack as a count of loads;
- `OverflowsAt`, an interpretation that ends in an overflow, and the load at which it does;
- interpretations of one chunk under two limits.

Does not own: interpretations under one limit.
-/

set_option autoImplicit false

namespace StackMachine

/-- Reading the code from its first byte, a load starts at `offset` after `count` others. -/
def Chunk.LoadsAt (chunk : Chunk) (count offset : Nat) : Prop :=
  ∃ body index,
    Decodes chunk.code 0 body offset ∧
      Instruction.decode chunk.code offset = .ok (.constant index) ∧
      body.countP Instruction.isLoad = count

/-- The interpretation ends at `offset`, where the stack has reached its `limit`. -/
def Machine.Interpretation.OverflowsAt
    (limit offset : Nat)
    (interpretation : Machine.Interpretation) : Prop :=
  ∃ line,
    interpretation.result =
      .error (.runtime { fault := .stackOverflow limit, offset, line })

/-! ## Depth -/

theorem Executes.length_eq
    {chunk : Chunk} {limit : Nat} {instruction : Instruction} {before after : List Value}
    (executes : Executes chunk limit instruction before after) :
    after.length = before.length + [instruction].countP Instruction.isLoad := by
  cases executes with
  | constant _ _ => rfl
  | negate => rfl

theorem ExecutesAll.length_eq
    {chunk : Chunk} {limit : Nat} {body : List Instruction} {before after : List Value}
    (executes : ExecutesAll chunk limit body before after) :
    after.length = before.length + body.countP Instruction.isLoad := by
  induction executes with
  | nil stack => rfl
  | @cons instruction rest _ _ _ first _ inductionHypothesis =>
      rw [inductionHypothesis, first.length_eq, Nat.add_assoc, ← List.countP_append]
      rfl

/-! ## Larger limits -/

theorem Executes.of_limit_le
    {chunk : Chunk} {low high : Nat} {instruction : Instruction} {before after : List Value}
    (executes : Executes chunk low instruction before after)
    (lower : low ≤ high) :
    Executes chunk high instruction before after := by
  cases executes with
  | constant found room => exact .constant found (by omega)
  | negate => exact .negate

theorem ExecutesAll.of_limit_le
    {chunk : Chunk} {low high : Nat} {body : List Instruction} {before after : List Value}
    (executes : ExecutesAll chunk low body before after)
    (lower : low ≤ high) :
    ExecutesAll chunk high body before after := by
  induction executes with
  | nil stack => exact .nil stack
  | cons first _ inductionHypothesis => exact .cons (first.of_limit_le lower) inductionHypothesis

/-- Faults other than an overflow do not depend on the limit. -/
theorem Blocked.of_ne_stackOverflow
    {chunk : Chunk} {low : Nat} {offset : Nat} {stack : List Value} {fault : Fault}
    (blocked : Blocked chunk low offset stack fault)
    (other : ∀ limit, fault ≠ .stackOverflow limit)
    (high : Nat) :
    Blocked chunk high offset stack fault := by
  cases blocked with
  | endOfCode past => exact .endOfCode past
  | missingOperand here last => exact .missingOperand here last
  | unknownOpcode here unknown => exact .unknownOpcode here unknown
  | refused decoded refuses =>
      apply Blocked.refused decoded
      cases refuses with
      | constantIndex outside => exact .constantIndex outside
      | stackOverflow _ _ => exact absurd rfl (other low)
      | stackUnderflow => exact .stackUnderflow
      | operandKind notNumber => exact .operandKind notNumber

/-- An overflow is met at a load, on a stack as deep as the limit. -/
theorem Blocked.exists_load_of_stackOverflow
    {chunk : Chunk} {machineLimit offset limit : Nat} {stack : List Value}
    (blocked : Blocked chunk machineLimit offset stack (.stackOverflow limit)) :
    limit = machineLimit ∧ stack.length = machineLimit ∧
      ∃ index, Instruction.decode chunk.code offset = .ok (.constant index) := by
  cases blocked with
  | refused decoded refuses =>
      cases refuses with
      | stackOverflow _ full => exact ⟨rfl, full, _, decoded⟩

namespace Machine

/-- A walk under a lower limit is made by every machine with a higher one. -/
theorem Walk.exists_of_limit_le
    {chunk : Chunk} {low last : Machine} {steps : List (Machine × Instruction)}
    (walk : Walk chunk low.reset steps last)
    (high : Machine)
    (lower : low.stackLimit ≤ high.stackLimit) :
    ∃ others,
      Walk chunk high.reset others { high.reset with cursor := last.cursor, stack := last.stack } := by
  have executes := walk.executesAll.of_limit_le lower
  obtain ⟨others, _, higher⟩ := @exists_walk chunk _ high.reset _ _ walk.decodes executes
  exact ⟨others, higher⟩

/-- An interpretation that does not overflow is the same under every higher limit. -/
theorem interpret_of_limit_le
    {low high : Machine} {chunk : Chunk}
    (lower : low.stackLimit ≤ high.stackLimit)
    (fits : ∀ limit offset, ¬ (low.interpret chunk).OverflowsAt limit offset) :
    (high.interpret chunk).result = (low.interpret chunk).result ∧
      (high.interpret chunk).machine.residue = (low.interpret chunk).machine.residue ∧
      (high.interpret chunk).machine.cursor = (low.interpret chunk).machine.cursor := by
  obtain ⟨steps, last, walk, ended⟩ := exists_walk_to_end chunk low.bounded_reset
  obtain ⟨others, higher⟩ := walk.exists_of_limit_le high lower
  rcases ended with decoded | ⟨fault, blocked⟩
  · rw [interpret_of_ret walk decoded, interpret_of_ret higher decoded]
    exact ⟨rfl, rfl, rfl⟩
  · have interpreted := interpret_of_blocked walk blocked
    have other : ∀ limit, fault ≠ .stackOverflow limit := by
      intro limit isOverflow
      apply fits limit last.cursor
      rw [Interpretation.OverflowsAt, interpreted, isOverflow]
      exact ⟨_, rfl⟩
    rw [interpreted, interpret_of_blocked higher (blocked.of_ne_stackOverflow other _)]
    exact ⟨rfl, rfl, rfl⟩

/-- An overflow is reported with the machine's own limit, at the first load that exceeds it. -/
theorem loadsAt_of_overflowsAt
    {machine : Machine} {chunk : Chunk} {limit offset : Nat}
    (overflows : (machine.interpret chunk).OverflowsAt limit offset) :
    limit = machine.stackLimit ∧ chunk.LoadsAt limit offset := by
  obtain ⟨line, failed⟩ := overflows
  obtain ⟨steps, last, walk, blocked, atLast, _⟩ := exists_blocked_of_interpret failed
  obtain ⟨isLimit, full, index, decoded⟩ := blocked.exists_load_of_stackOverflow
  have sameLimit : last.stackLimit = machine.stackLimit := walk.stackLimit_eq
  have depth : last.stack.length = 0 + (steps.map Prod.snd).countP Instruction.isLoad :=
    walk.executesAll.length_eq
  change offset = last.cursor at atLast
  subst atLast
  refine ⟨isLimit.trans sameLimit, steps.map Prod.snd, index, walk.decodes, decoded, ?_⟩
  omega

/-- Of two limits, the higher one changes only interpretations that overflow under the lower one, and
what overflows under the higher one does so under the lower.  An overflow is met at a load that comes
after as many others as the limit allows. -/
theorem interpret_stackLimit_mono
    (low high : Machine)
    (chunk : Chunk)
    (lower : low.stackLimit ≤ high.stackLimit) :
    ((∀ limit offset, ¬ (low.interpret chunk).OverflowsAt limit offset) →
      (high.interpret chunk).result = (low.interpret chunk).result ∧
        (high.interpret chunk).machine.residue = (low.interpret chunk).machine.residue ∧
        (high.interpret chunk).machine.cursor = (low.interpret chunk).machine.cursor) ∧
    ((∃ offset, (high.interpret chunk).OverflowsAt high.stackLimit offset) →
      ∃ offset, (low.interpret chunk).OverflowsAt low.stackLimit offset) ∧
    ∀ (machine : Machine) (limit offset : Nat),
      (machine.interpret chunk).OverflowsAt limit offset →
        limit = machine.stackLimit ∧ chunk.LoadsAt limit offset := by
  refine ⟨interpret_of_limit_le lower, ?_, fun _ _ _ => loadsAt_of_overflowsAt⟩
  intro overflows
  obtain ⟨highOffset, line, failed⟩ := overflows
  by_contra fits
  have neverOverflows : ∀ limit offset, ¬ (low.interpret chunk).OverflowsAt limit offset := by
    intro limit offset lowOverflows
    obtain ⟨isLimit, _⟩ := loadsAt_of_overflowsAt lowOverflows
    rw [isLimit] at lowOverflows
    exact fits ⟨offset, lowOverflows⟩
  -- Without an overflow the lower machine ends as the higher one does, which is in an overflow.
  have sameResult := (interpret_of_limit_le lower neverOverflows).1
  rw [failed] at sameResult
  exact neverOverflows _ _ ⟨line, sameResult.symm⟩

/-- Two loads, each negated; the second negation finds a stack of two values. -/
def negatedLoads : Chunk where
  code := #[0, 0, 1, 0, 0, 1, 2]
  lines := #[1, 1, 1, 2, 2, 2, 3]
  constants := #[.number (.ofBits 0x3ff3333333333333)]

theorem negatedLoads_limited :
    let tight : Machine := { stackLimit := 1 }
    let full : Machine := { stackLimit := 2 }
    let roomy : Machine := { stackLimit := 9, residue := [.nil] }
    full.stackLimit ≤ roomy.stackLimit ∧
      (roomy.interpret negatedLoads).result = .ok () ∧
      (roomy.interpret negatedLoads).machine.residue =
        (full.interpret negatedLoads).machine.residue ∧
      (roomy.interpret negatedLoads).machine.cursor = 7 ∧
      (tight.interpret negatedLoads).OverflowsAt 1 3 ∧
      negatedLoads.LoadsAt 1 3 := by
  intro tight full roomy
  have succeeds : (full.interpret negatedLoads).result = .ok () := by decide +kernel
  have fits : ∀ limit offset, ¬ (full.interpret negatedLoads).OverflowsAt limit offset := by
    intro limit offset overflows
    obtain ⟨line, failed⟩ := overflows
    rw [succeeds] at failed
    cases failed
  have tightOverflows : (tight.interpret negatedLoads).OverflowsAt 1 3 :=
    ⟨some 2, by decide +kernel⟩
  have lower : full.stackLimit ≤ roomy.stackLimit := by decide
  obtain ⟨same, _, atLoad⟩ := interpret_stackLimit_mono full roomy negatedLoads lower
  obtain ⟨result, residue, cursor⟩ := same fits
  have fullCursor : (full.interpret negatedLoads).machine.cursor = 7 := by decide +kernel
  exact ⟨lower, result.trans succeeds, residue, cursor.trans fullCursor, tightOverflows,
    (atLoad tight 1 3 tightOverflows).2⟩

end Machine

end StackMachine
