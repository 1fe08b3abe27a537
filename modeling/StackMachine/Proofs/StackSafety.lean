import StackMachine.Proofs.Dispatch

/-!
Contract: the stack in the course of an interpretation.

A negation looks at the top of the stack, pops it and pushes the result, and each of the three can
fail by itself.  That the last two never do is not a matter of the instruction alone: on a stack
beyond its limit the pop succeeds and the push does not, and the operand is lost.  What keeps this
from happening is the depth of the stack in all states before.

Owns:
- `Guarded`, what holds of the stack in every state before the `Return`, with the steps and parts of
  steps that preserve it;
- `StackSafe`, what follows from it for the instructions that are executed there.

Does not own: the values on the stack.
-/

set_option autoImplicit false

namespace StackMachine.Machine

/-- The machine has the given limit and keeps to it, and has not returned. -/
structure Guarded (limit : Nat) (state : Machine) : Prop where
  stackLimit_eq : state.stackLimit = limit
  depth_le : state.stack.length ≤ limit
  residue_nil : state.residue = []

/-- What is sure of the stack in a state of an interpretation with the given limit. -/
structure StackSafe (chunk : Chunk) (limit : Nat) (state : Machine) : Prop extends
    Guarded limit state where
  /-- Once a number is seen on top of the stack, neither the pop nor the push of a negation fails,
  and only that number is replaced. -/
  negates : ∀ operand seen,
    top.run state = .ok operand seen → operand.isNumber = true →
      ∃ datum rest,
        state.stack = .number datum :: rest ∧
          pop.run seen = .ok (.number datum) { state with stack := rest } ∧
          (push (.number (-datum))).run { state with stack := rest } =
            .ok () { state with stack := .number (-datum) :: rest } ∧
          (execute chunk .negate).run state =
            .ok .next { state with stack := .number (-datum) :: rest }
  /-- An instruction that faults changes nothing. -/
  fault_keeps : ∀ instruction fault after,
    (execute chunk instruction).run state = .error fault after → after = state

theorem Guarded.bounded {limit : Nat} {state : Machine} (guarded : Guarded limit state) :
    state.Bounded := by
  rw [Bounded, guarded.stackLimit_eq]
  exact guarded.depth_le

theorem guarded_reset (machine : Machine) : Guarded machine.stackLimit machine.reset where
  stackLimit_eq := rfl
  depth_le := machine.bounded_reset
  residue_nil := rfl

/-! ## What preserves the guard -/

theorem exists_stack_of_top
    {machine seen : Machine} {operand : Value}
    (looked : top.run machine = .ok operand seen) :
    seen = machine ∧ ∃ rest, machine.stack = operand :: rest := by
  cases stack : machine.stack with
  | nil =>
      rw [run_top_nil stack] at looked
      cases looked
  | cons value rest =>
      rw [run_top_cons stack] at looked
      cases looked
      exact ⟨rfl, rest, rfl⟩

/-- On a bounded stack, an instruction after which the loop goes on is one that can be executed. -/
theorem exists_executes_of_execute
    {chunk : Chunk} {instruction : Instruction} {machine after : Machine}
    (bounded : machine.Bounded)
    (executed : (execute chunk instruction).run machine = .ok .next after) :
    ∃ stack,
      Executes chunk machine.stackLimit instruction machine.stack stack ∧
        after = { machine with stack } := by
  have notReturn : instruction ≠ .ret := by
    rintro rfl
    cases executed
  rcases executes_or_refuses chunk bounded notReturn with ⟨stack, executes⟩ | ⟨fault, refuses⟩
  · rw [run_execute_of_executes bounded executes] at executed
    cases executed
    exact ⟨stack, executes, rfl⟩
  · rw [run_execute_of_refuses refuses] at executed
    cases executed

namespace Guarded

variable {chunk : Chunk} {limit : Nat} {start state : Machine}

theorem withCursor (guarded : Guarded limit state) (cursor : Nat) :
    Guarded limit { state with cursor } :=
  ⟨guarded.stackLimit_eq, guarded.depth_le, guarded.residue_nil⟩

theorem fetchInstruction
    {instruction : Instruction}
    (guarded : Guarded limit start)
    (fetched : (Machine.fetchInstruction chunk).run start = .ok instruction state) :
    Guarded limit state := by
  rw [(fetchInstruction_cursor fetched).1]
  exact guarded.withCursor _

/-- A step that goes on preserves the guard. -/
theorem step
    (guarded : Guarded limit start)
    (stepped : (Machine.step chunk).run start = .ok .next state) :
    Guarded limit state := by
  obtain ⟨instruction, _, executed⟩ := step_eq_ok_iff.mp stepped
  have ready := guarded.withCursor (start.cursor + instruction.operation.size)
  obtain ⟨stack, executes, rfl⟩ := exists_executes_of_execute ready.bounded executed
  refine ⟨guarded.stackLimit_eq, ?_, guarded.residue_nil⟩
  rw [← guarded.stackLimit_eq]
  exact executes.length_le guarded.bounded

/-- The guard holds from the start of an instruction to its end. -/
theorem visits
    (guarded : Guarded limit start)
    (visits : Visits chunk start state) :
    Guarded limit state := by
  cases visits with
  | start => exact guarded
  | opcode fetched =>
      rw [(fetchByte_cursor fetched).1]
      exact guarded.withCursor _
  | instruction fetched => exact guarded.fetchInstruction fetched
  | operand fetched looked _ popped =>
      have ready := guarded.fetchInstruction fetched
      obtain ⟨rfl, rest, stack⟩ := exists_stack_of_top looked
      rw [run_pop_cons stack] at popped
      cases popped
      have depth := ready.depth_le
      rw [stack, List.length_cons] at depth
      exact ⟨ready.stackLimit_eq, Nat.le_of_succ_le depth, ready.residue_nil⟩
  | fault stepped =>
      rcases eq_or_overfull_of_step_error stepped with same | ⟨overfull, _⟩
      · rw [same]
        exact guarded.withCursor _
      · exact absurd guarded.bounded overfull

/-! ## What follows from it -/

theorem stackSafe (guarded : Guarded limit state) (chunk : Chunk) :
    StackSafe chunk limit state where
  toGuarded := guarded
  negates := by
    intro operand seen looked isNumber
    obtain ⟨rfl, rest, stack⟩ := exists_stack_of_top looked
    obtain ⟨datum, rfl⟩ :=
      Value.exists_eq_number ((Value.isNumber_iff_kind operand).mp isNumber)
    -- The popped number has made the room that its negation needs.
    have room : rest.length < seen.stackLimit := by
      have depth := guarded.bounded
      rw [Bounded, stack, List.length_cons] at depth
      exact depth
    refine ⟨datum, rest, stack, run_pop_cons stack, ?_, ?_⟩
    · exact @run_push_of_room _ { seen with stack := rest } room
    · rw [run_execute_negate chunk stack, if_pos room]
  fault_keeps := by
    intro instruction fault after executed
    rcases eq_or_overfull_of_execute_error executed with same | ⟨overfull, _⟩
    · exact same
    · exact absurd guarded.bounded overfull

end Guarded

/-- From the start of an interpretation to its `Return` or its fault, in every state that the loop
goes through, the stack keeps to its limit and the residue is empty.  A negation that has seen a
number replaces it and cannot fail, even on a full stack, and an instruction that faults leaves the
machine as it found it. -/
theorem interpret_visits_stackSafe
    (machine : Machine)
    (chunk : Chunk)
    (start state : Machine)
    (started : start ∈ (machine.interpret chunk).starts)
    (visits : Visits chunk start state) :
    (machine.interpret chunk).Records chunk machine.reset ∧
      StackSafe chunk machine.stackLimit state := by
  have guarded : Guarded machine.stackLimit start :=
    (loops_run machine.reset chunk).forall_mem_starts machine.guarded_reset
      (fun _ _ => Guarded.step) start started
  exact ⟨machine.interpret_records chunk, (guarded.visits visits).stackSafe chunk⟩

/-- A number, negated on a stack that it fills. -/
def negatedWhenFull : Chunk where
  code := #[0, 0, 1, 2]
  lines := #[1, 1, 1, 1]
  constants := #[.number (.ofBits 0x3ff3333333333333)]

theorem negatedWhenFull_stackSafe :
    let machine : Machine := { stackLimit := 1, residue := [.nil] }
    let loaded : Machine :=
      { cursor := 2, stack := [.number (.ofBits 0x3ff3333333333333)], stackLimit := 1 }
    let ready : Machine := { loaded with cursor := 3 }
    loaded ∈ (machine.interpret negatedWhenFull).starts ∧
      Visits negatedWhenFull loaded ready ∧
      (machine.interpret negatedWhenFull).Records negatedWhenFull machine.reset ∧
      StackSafe negatedWhenFull 1 ready ∧
      (execute negatedWhenFull .negate).run ready =
        .ok .next { ready with stack := [.number (.ofBits 0xbff3333333333333)] } := by
  intro machine loaded ready
  have started : loaded ∈ (machine.interpret negatedWhenFull).starts := by decide +kernel
  have visits : Visits negatedWhenFull loaded ready := @Visits.instruction _ _ .negate _ rfl
  obtain ⟨records, safe⟩ :=
    interpret_visits_stackSafe machine negatedWhenFull loaded ready started visits
  obtain ⟨datum, rest, stack, _, _, executed⟩ := safe.negates _ _ rfl rfl
  cases stack
  exact ⟨started, visits, records, safe, executed⟩

end StackMachine.Machine
