import StackMachine.Machine.Basic

/-!
Contract: running chunks to their end.

A run steps from instruction to instruction until a `Return` or a fault.  Every step that goes on
moves the cursor forward inside the code, so every run ends.

Owns: the dispatch loop with the states it passes through, the place of a fault, and the
interpretation of a chunk from its first byte.
Does not own: what a single step does.
-/

set_option autoImplicit false

namespace StackMachine

/-- What a run of the dispatch loop was. -/
structure Run where
  /-- The machine as it was before each instruction that the run started, in order. -/
  starts : List Machine
  /-- The machine as the last of these instructions left it. -/
  final : Machine
  result : Except RuntimeError Unit

/-- A fault at the instruction that starts at `offset`.  One past the end of the code is blamed on
the last line that there is. -/
def Chunk.locate (chunk : Chunk) (offset : Nat) (fault : Fault) : RuntimeError :=
  { fault, offset, line := (chunk.line? offset).or chunk.lines.back? }

namespace Machine

/-- Runs from the cursor until a `Return` or a fault. -/
def run (machine : Machine) (chunk : Chunk) : Run :=
  match stepped : (step chunk).run machine with
  | .error fault after =>
      { starts := [machine]
        final := after
        result := .error (chunk.locate machine.cursor fault) }
  | .ok .halt after =>
      { starts := [machine]
        final := after
        result := .ok () }
  | .ok .next after =>
      have : machine.cursor < after.cursor ∧ after.cursor ≤ chunk.size := step_cursor stepped
      let rest := run after chunk
      { rest with starts := machine :: rest.starts }
termination_by chunk.size - machine.cursor
decreasing_by
  omega

theorem run_of_error
    {chunk : Chunk}
    {machine after : Machine}
    {fault : Fault}
    (stepped : (step chunk).run machine = .error fault after) :
    machine.run chunk =
      { starts := [machine]
        final := after
        result := .error (chunk.locate machine.cursor fault) } := by
  rw [run]
  split <;> simp_all

theorem run_of_halt
    {chunk : Chunk}
    {machine after : Machine}
    (stepped : (step chunk).run machine = .ok .halt after) :
    machine.run chunk = { starts := [machine], final := after, result := .ok () } := by
  rw [run]
  split <;> simp_all

theorem run_of_next
    {chunk : Chunk}
    {machine after : Machine}
    (stepped : (step chunk).run machine = .ok .next after) :
    machine.run chunk =
      { after.run chunk with starts := machine :: (after.run chunk).starts } := by
  rw [run]
  split <;> simp_all

/-- The machine as an interpretation starts with it: only the stack limit is kept. -/
def reset (machine : Machine) : Machine :=
  { stackLimit := machine.stackLimit }

/-- What interpreting a chunk was: its end, the machine afterwards, and the states before each
instruction. -/
structure Interpretation where
  result : Except InterpretError Unit
  machine : Machine
  starts : List Machine

/-- Runs a chunk from its first byte.  Whatever the outcome, the stack is empty afterwards, and
the cursor stays where the run left it. -/
def interpret (machine : Machine) (chunk : Chunk) : Interpretation :=
  let done := machine.reset.run chunk
  { result := done.result.mapError .runtime
    machine := { done.final with stack := [] }
    starts := done.starts }

end Machine

end StackMachine
