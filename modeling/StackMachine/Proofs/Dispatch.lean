import Mathlib.Data.List.Chain
import StackMachine.Proofs.Walk

/-!
Contract: the dispatch loop, with every state that it takes a machine through.

A run lists the machine before each instruction.  Between two of these states the machine is in
others: with an opcode fetched and its operand not yet, with the whole instruction fetched, or with
an operand popped whose negation is not yet pushed.  What holds at all times has to hold there too.

Owns:
- the state in which a step leaves the machine when it faults, and its cursor in any case, for
  machines with a stack of any depth;
- `Visits`, the states in the course of one instruction;
- `Loops`, the loop as its steps make it, with no bound on their number, and its agreement with
  runs;
- `Records`, that an interpretation tells what the loop has done.

Does not own: what all of these states have in common.
-/

set_option autoImplicit false

namespace StackMachine.Machine

/-! ## Faults -/

/-- An instruction that faults leaves the machine as it was, unless it is a negation on a stack
beyond its limit. -/
theorem eq_or_overfull_of_execute_error
    {chunk : Chunk} {instruction : Instruction} {machine after : Machine} {fault : Fault}
    (executed : (execute chunk instruction).run machine = .error fault after) :
    after = machine ∨ ¬ machine.Bounded ∧ after = { machine with stack := machine.stack.tail } := by
  cases instruction with
  | constant index =>
      left
      simp only [execute] at executed
      cases found : chunk.constant? index with
      | none =>
          rw [found] at executed
          cases executed
          rfl
      | some value =>
          simp only [found, EStateM.run_bind] at executed
          by_cases room : machine.stack.length < machine.stackLimit
          · rw [run_push_of_room room] at executed
            cases executed
          · rw [run_push_of_full (Nat.not_lt.mp room)] at executed
            cases executed
            rfl
  | negate =>
      have unchanged : ∀ other,
          Refuses chunk machine.stackLimit .negate machine.stack other → after = machine := by
        intro other refuses
        rw [run_execute_of_refuses refuses] at executed
        cases executed
        rfl
      cases stack : machine.stack with
      | nil =>
          rw [stack] at unchanged
          exact .inl (unchanged _ .stackUnderflow)
      | cons value rest =>
          by_cases isNumber : value.kind = .number
          · obtain ⟨datum, rfl⟩ := Value.exists_eq_number isNumber
            rw [run_execute_negate chunk stack] at executed
            split at executed
            · cases executed
            · rename_i full
              cases executed
              refine .inr ⟨?_, rfl⟩
              rw [Bounded, stack, List.length_cons]
              omega
          · rw [stack] at unchanged
            exact .inl (unchanged _ (.operandKind isNumber))
  | ret => cases executed

/-! ## Steps -/

theorem step_eq_ok_iff {chunk : Chunk} {machine after : Machine} {flow : Flow} :
    (step chunk).run machine = .ok flow after ↔
      ∃ instruction,
        Instruction.decode chunk.code machine.cursor = .ok instruction ∧
          (execute chunk instruction).run
            { machine with cursor := machine.cursor + instruction.operation.size } =
              .ok flow after := by
  constructor
  · intro stepped
    cases decoded : Instruction.decode chunk.code machine.cursor with
    | error error =>
        rw [run_step_of_decode_error decoded] at stepped
        cases stepped
    | ok instruction =>
        rw [run_step_of_decode decoded] at stepped
        exact ⟨instruction, rfl, stepped⟩
  · rintro ⟨instruction, decoded, executed⟩
    rw [run_step_of_decode decoded, executed]

theorem cursor_of_step_ok
    {chunk : Chunk} {machine after : Machine} {flow : Flow}
    (stepped : (step chunk).run machine = .ok flow after) :
    after.cursor = chunk.fetchEnd machine.cursor := by
  obtain ⟨instruction, decoded, executed⟩ := step_eq_ok_iff.mp stepped
  rw [execute_cursor executed, Chunk.fetchEnd_of_decode decoded]

/-- A step that faults has moved the cursor past the bytes it fetched, and has changed nothing else
unless the stack was beyond its limit. -/
theorem eq_or_overfull_of_step_error
    {chunk : Chunk} {machine after : Machine} {fault : Fault}
    (stepped : (step chunk).run machine = .error fault after) :
    after = { machine with cursor := chunk.fetchEnd machine.cursor } ∨
      ¬ machine.Bounded ∧
        after =
          { machine with
            cursor := chunk.fetchEnd machine.cursor
            stack := machine.stack.tail } := by
  cases decoded : Instruction.decode chunk.code machine.cursor with
  | error error =>
      rw [run_step_of_decode_error decoded] at stepped
      cases stepped
      exact .inl rfl
  | ok instruction =>
      rw [run_step_of_decode decoded] at stepped
      rw [Chunk.fetchEnd_of_decode decoded]
      exact eq_or_overfull_of_execute_error stepped

theorem cursor_of_step_error
    {chunk : Chunk} {machine after : Machine} {fault : Fault}
    (stepped : (step chunk).run machine = .error fault after) :
    after.cursor = chunk.fetchEnd machine.cursor := by
  rcases eq_or_overfull_of_step_error stepped with same | ⟨_, popped⟩
  · rw [same]
  · rw [popped]

/-! ## Within one instruction -/

/-- The machine is in `state` at some time after it has started an instruction in `start`, and
before it starts the next one or has returned. -/
inductive Visits (chunk : Chunk) (start : Machine) : Machine → Prop where
  | start : Visits chunk start start
  | opcode {byte : UInt8} {state : Machine}
      (fetched : (fetchByte chunk).run start = .ok byte state) :
      Visits chunk start state
  | instruction {instruction : Instruction} {state : Machine}
      (fetched : (fetchInstruction chunk).run start = .ok instruction state) :
      Visits chunk start state
  | operand {ready seen state : Machine} {operand value : Value}
      (fetched : (fetchInstruction chunk).run start = .ok .negate ready)
      (looked : top.run ready = .ok operand seen)
      (isNumber : operand.isNumber = true)
      (popped : pop.run seen = .ok value state) :
      Visits chunk start state
  | fault {fault : Fault} {state : Machine}
      (stepped : (step chunk).run start = .error fault state) :
      Visits chunk start state

/-! ## The loop -/

/-- The loop, entered with a machine, comes to an end and has then been the given run.  It is the
steps that decide: a loop that met neither a `Return` nor a fault would be no run at all. -/
inductive Loops (chunk : Chunk) : Machine → Run → Prop where
  | error {machine after : Machine} {fault : Fault}
      (stepped : (step chunk).run machine = .error fault after) :
      Loops chunk machine
        { starts := [machine]
          final := after
          result := .error (chunk.locate machine.cursor fault) }
  | halt {machine after : Machine}
      (stepped : (step chunk).run machine = .ok .halt after) :
      Loops chunk machine { starts := [machine], final := after, result := .ok () }
  | next {machine after : Machine} {rest : Run}
      (stepped : (step chunk).run machine = .ok .next after)
      (others : Loops chunk after rest) :
      Loops chunk machine { rest with starts := machine :: rest.starts }

/-- The loop ends from every state: a step that goes on leaves less code ahead of the cursor. -/
theorem loops_run (machine : Machine) (chunk : Chunk) :
    Loops chunk machine (machine.run chunk) := by
  cases stepped : (step chunk).run machine with
  | error fault after =>
      rw [run_of_error stepped]
      exact .error stepped
  | ok flow after =>
      cases flow with
      | halt =>
          rw [run_of_halt stepped]
          exact .halt stepped
      | next =>
          rw [run_of_next stepped]
          exact .next stepped (loops_run after chunk)
termination_by chunk.size - machine.cursor
decreasing_by
  have moved := step_cursor stepped
  omega

namespace Loops

variable {chunk : Chunk} {first : Machine} {outcome : Run}

theorem eq_run (loops : Loops chunk first outcome) : outcome = first.run chunk := by
  induction loops with
  | error stepped => exact (run_of_error stepped).symm
  | halt stepped => exact (run_of_halt stepped).symm
  | next stepped _ inductionHypothesis => rw [run_of_next stepped, ← inductionHypothesis]

theorem exists_starts_eq (loops : Loops chunk first outcome) :
    ∃ later, outcome.starts = first :: later := by
  cases loops with
  | error _ => exact ⟨[], rfl⟩
  | halt _ => exact ⟨[], rfl⟩
  | next _ _ => exact ⟨_, rfl⟩

/-- Instructions that follow each other are one step apart. -/
theorem isChain_starts (loops : Loops chunk first outcome) :
    outcome.starts.IsChain fun start next => (step chunk).run start = .ok .next next := by
  induction loops with
  | error _ => exact .singleton _
  | halt _ => exact .singleton _
  | next stepped others inductionHypothesis =>
      obtain ⟨later, startsEq⟩ := others.exists_starts_eq
      rw [startsEq] at inductionHypothesis ⊢
      exact .cons_cons stepped inductionHypothesis

/-- Each instruction leaves the cursor after the bytes that were fetched for it, and so does the
last one, whether it returns or faults. -/
theorem isChain_fetchEnd (loops : Loops chunk first outcome) :
    (outcome.starts ++ [outcome.final]).IsChain fun start next =>
      next.cursor = chunk.fetchEnd start.cursor := by
  induction loops with
  | error stepped => exact .cons_cons (cursor_of_step_error stepped) (.singleton _)
  | halt stepped => exact .cons_cons (cursor_of_step_ok stepped) (.singleton _)
  | next stepped others inductionHypothesis =>
      obtain ⟨later, startsEq⟩ := others.exists_starts_eq
      rw [startsEq] at inductionHypothesis ⊢
      exact .cons_cons (cursor_of_step_ok stepped) inductionHypothesis

/-- What every step that goes on preserves holds before each instruction. -/
theorem forall_mem_starts
    {Invariant : Machine → Prop}
    (loops : Loops chunk first outcome)
    (entered : Invariant first)
    (preserved : ∀ before after,
      Invariant before → (step chunk).run before = .ok .next after → Invariant after) :
    ∀ start ∈ outcome.starts, Invariant start := by
  induction loops with
  | error _ => exact List.forall_mem_singleton.mpr entered
  | halt _ => exact List.forall_mem_singleton.mpr entered
  | next stepped _ inductionHypothesis =>
      exact List.forall_mem_cons.mpr
        ⟨entered, inductionHypothesis (preserved _ _ entered stepped)⟩

end Loops

/-! ## Interpretations -/

/-- The loop, entered with `first`, has an end, and the interpretation tells how it went: the states
in which instructions were started, the result, and the machine with its stack emptied. -/
structure Interpretation.Records
    (chunk : Chunk)
    (first : Machine)
    (interpretation : Interpretation) : Prop where
  ends : ∃ outcome, Loops chunk first outcome
  tells : ∀ outcome, Loops chunk first outcome →
    interpretation.starts = outcome.starts ∧
      interpretation.result = outcome.result.mapError .runtime ∧
      interpretation.machine = { outcome.final with stack := [] }

theorem interpret_records (machine : Machine) (chunk : Chunk) :
    (machine.interpret chunk).Records chunk machine.reset where
  ends := ⟨_, loops_run machine.reset chunk⟩
  tells := by
    intro outcome loops
    rw [loops.eq_run]
    exact ⟨rfl, rfl, rfl⟩

end StackMachine.Machine
