import StackMachine.Machine.Run
import StackMachine.Proofs.Step

/-!
Contract: whole runs of the machine, as walks through the code.

A walk is what a run does before its last instruction: it executes instructions one after the
other, and each starts where the one before it ends.  Every run is one walk, and then a `Return` or
a fault.

Owns:
- `Walk`, with the state before each instruction, and what it means for code and stack;
- the run and the interpretation that follow from a walk and the way it ends;
- that every bounded machine has such a walk.

Does not own: which walks are possible in a given piece of code.
-/

set_option autoImplicit false

namespace StackMachine

/-- The instructions turn one stack into another, each of them executed on the stack that those
before it have left. -/
inductive ExecutesAll (chunk : Chunk) (limit : Nat) :
    List Instruction → List Value → List Value → Prop where
  | nil (stack : List Value) : ExecutesAll chunk limit [] stack stack
  | cons {instruction : Instruction} {rest : List Instruction} {before middle after : List Value}
      (first : Executes chunk limit instruction before middle)
      (others : ExecutesAll chunk limit rest middle after) :
      ExecutesAll chunk limit (instruction :: rest) before after

theorem ExecutesAll.noReturn
    {chunk : Chunk} {limit : Nat} {body : List Instruction} {before after : List Value}
    (executes : ExecutesAll chunk limit body before after) :
    .ret ∉ body := by
  induction executes with
  | nil => exact List.not_mem_nil
  | cons first _ inductionHypothesis =>
      intro member
      rcases List.mem_cons.mp member with isFirst | inRest
      · subst isFirst
        cases first
      · exact inductionHypothesis inRest

theorem Executes.length_le
    {chunk : Chunk} {limit : Nat} {instruction : Instruction} {before after : List Value}
    (executes : Executes chunk limit instruction before after)
    (bounded : before.length ≤ limit) :
    after.length ≤ limit := by
  cases executes with
  | constant _ room => exact room
  | negate => exact bounded

namespace Machine

/-- Executed instructions lead from one machine to another.  Each of them is listed with the
machine before it. -/
inductive Walk (chunk : Chunk) : Machine → List (Machine × Instruction) → Machine → Prop where
  | nil (machine : Machine) : Walk chunk machine [] machine
  | cons
      {machine last : Machine} {instruction : Instruction} {stack : List Value}
      {steps : List (Machine × Instruction)}
      (decoded : Instruction.decode chunk.code machine.cursor = .ok instruction)
      (executes : Executes chunk machine.stackLimit instruction machine.stack stack)
      (rest : Walk chunk (machine.advance instruction stack) steps last) :
      Walk chunk machine ((machine, instruction) :: steps) last

namespace Walk

variable {chunk : Chunk} {first last : Machine} {steps : List (Machine × Instruction)}

theorem bounded (walk : Walk chunk first steps last) (start : first.Bounded) : last.Bounded := by
  induction walk with
  | nil => exact start
  | cons _ executes _ inductionHypothesis =>
      exact inductionHypothesis (executes.length_le start)

theorem stackLimit_eq (walk : Walk chunk first steps last) :
    last.stackLimit = first.stackLimit := by
  induction walk with
  | nil => rfl
  | cons _ _ _ inductionHypothesis => exact inductionHypothesis

theorem residue_eq (walk : Walk chunk first steps last) : last.residue = first.residue := by
  induction walk with
  | nil => rfl
  | cons _ _ _ inductionHypothesis => exact inductionHypothesis

/-- The executed instructions stand in the code between the two cursors. -/
theorem decodes (walk : Walk chunk first steps last) :
    Decodes chunk.code first.cursor (steps.map Prod.snd) last.cursor := by
  induction walk with
  | nil => rfl
  | cons decoded _ _ inductionHypothesis => exact ⟨decoded, inductionHypothesis⟩

theorem executesAll (walk : Walk chunk first steps last) :
    ExecutesAll chunk first.stackLimit (steps.map Prod.snd) first.stack last.stack := by
  induction walk with
  | nil => exact .nil _
  | cons _ executes _ inductionHypothesis => exact .cons executes inductionHypothesis

end Walk

/-- Code that can be executed is walked through. -/
theorem exists_walk
    {chunk : Chunk} {body : List Instruction} {machine : Machine} {stop : Nat}
    {stack : List Value}
    (decodes : Decodes chunk.code machine.cursor body stop)
    (executes : ExecutesAll chunk machine.stackLimit body machine.stack stack) :
    ∃ steps, steps.map Prod.snd = body ∧
      Walk chunk machine steps { machine with cursor := stop, stack } := by
  induction body generalizing machine with
  | nil =>
      cases decodes
      cases executes
      exact ⟨[], rfl, .nil machine⟩
  | cons instruction rest inductionHypothesis =>
      obtain ⟨decoded, others⟩ := decodes
      cases executes with
      | cons executed remaining =>
          obtain ⟨steps, instructions, walk⟩ :=
            @inductionHypothesis (machine.advance instruction _) others remaining
          refine ⟨(machine, instruction) :: steps, ?_, .cons decoded executed walk⟩
          rw [List.map_cons, instructions]

/-- Every bounded machine walks to a `Return` or to a place where it is blocked. -/
theorem exists_walk_to_end {machine : Machine} (chunk : Chunk) (bounded : machine.Bounded) :
    ∃ steps last, Walk chunk machine steps last ∧ last.Ends chunk := by
  rcases executes_or_ends chunk bounded with ⟨instruction, stack, decoded, executes⟩ | ended
  · obtain ⟨steps, last, walk, ended⟩ :=
      @exists_walk_to_end (machine.advance instruction stack) chunk (executes.length_le bounded)
    exact ⟨(machine, instruction) :: steps, last, .cons decoded executes walk, ended⟩
  · exact ⟨[], machine, .nil machine, ended⟩
termination_by chunk.size - machine.cursor
decreasing_by
  have inside : _ ≤ chunk.size := size_le_of_decode decoded
  have sizePos := instruction.operation.size_pos
  simp only [advance]
  omega

/-! ## Runs -/

theorem Walk.run_eq
    {chunk : Chunk} {first last : Machine} {steps : List (Machine × Instruction)}
    (walk : Walk chunk first steps last)
    (start : first.Bounded) :
    first.run chunk =
      { last.run chunk with starts := steps.map Prod.fst ++ (last.run chunk).starts } := by
  induction walk with
  | nil => rfl
  | cons decoded executes _ inductionHypothesis =>
      rw [run_of_next (step_of_executes start decoded executes),
        inductionHypothesis (executes.length_le start)]
      rfl

theorem bounded_reset (machine : Machine) : machine.reset.Bounded :=
  Nat.zero_le _

/-- An interpretation that walks to a `Return`. -/
theorem interpret_of_ret
    {chunk : Chunk} {machine last : Machine} {steps : List (Machine × Instruction)}
    (walk : Walk chunk machine.reset steps last)
    (decoded : Instruction.decode chunk.code last.cursor = .ok .ret) :
    machine.interpret chunk =
      { result := .ok ()
        machine :=
          { cursor := last.cursor + 1
            stackLimit := machine.stackLimit
            residue := last.stack.reverse }
        starts := steps.map Prod.fst ++ [last] } := by
  have limit : last.stackLimit = machine.stackLimit := walk.stackLimit_eq
  rw [interpret, walk.run_eq machine.bounded_reset, run_of_halt (step_of_ret decoded)]
  simp only [limit]
  rfl

/-- An interpretation that walks to a place where it is blocked. -/
theorem interpret_of_blocked
    {chunk : Chunk} {machine last : Machine} {steps : List (Machine × Instruction)}
    {fault : Fault}
    (walk : Walk chunk machine.reset steps last)
    (blocked : Blocked chunk last.stackLimit last.cursor last.stack fault) :
    machine.interpret chunk =
      { result := .error (.runtime (chunk.locate last.cursor fault))
        machine := { cursor := chunk.fetchEnd last.cursor, stackLimit := machine.stackLimit }
        starts := steps.map Prod.fst ++ [last] } := by
  have limit : last.stackLimit = machine.stackLimit := walk.stackLimit_eq
  have residue : last.residue = [] := walk.residue_eq
  rw [interpret, walk.run_eq machine.bounded_reset, run_of_error (step_of_blocked blocked)]
  simp only [limit, residue]
  rfl

/-- An interpretation that fails has walked to a place where it is blocked, which is the place that
it reports. -/
theorem exists_blocked_of_interpret
    {machine : Machine} {chunk : Chunk} {error : RuntimeError}
    (failed : (machine.interpret chunk).result = .error (.runtime error)) :
    ∃ steps last,
      Walk chunk machine.reset steps last ∧
      Blocked chunk last.stackLimit last.cursor last.stack error.fault ∧
      error.offset = last.cursor ∧
      (machine.interpret chunk).machine.cursor = chunk.fetchEnd last.cursor := by
  obtain ⟨steps, last, walk, ended⟩ := exists_walk_to_end chunk machine.bounded_reset
  rcases ended with decoded | ⟨fault, blocked⟩
  · rw [interpret_of_ret walk decoded] at failed
    cases failed
  · rw [interpret_of_blocked walk blocked] at failed ⊢
    cases failed
    exact ⟨steps, last, walk, blocked, rfl, rfl⟩

theorem Walk.starts_eq
    {chunk : Chunk} {machine last : Machine} {steps : List (Machine × Instruction)}
    (walk : Walk chunk machine.reset steps last)
    (ended : last.Ends chunk) :
    (machine.interpret chunk).starts = steps.map Prod.fst ++ [last] := by
  rcases ended with decoded | ⟨fault, blocked⟩
  · rw [interpret_of_ret walk decoded]
  · rw [interpret_of_blocked walk blocked]

end Machine

end StackMachine
