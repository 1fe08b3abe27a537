import StackMachine.Proofs.Dispatch
import StackMachine.Proofs.Fetching

/-!
Contract: the cursor's way through the code, and the end of every loop.

The loop has no counter.  It ends because the cursor moves with every instruction, never back, and
because there is nothing to fetch at the end of the code.  The cursor is therefore one of the
offsets from zero to the size of the code at all times, also where an opcode has been fetched and
its operand has not, and a word that can hold the size never overflows.

Owns:
- `Progresses`, what the cursor does in the course of a loop, and that it does so in every loop that
  is entered at the start of the code;
- `fetchByteWrapping`, the fetch on a cursor of limited range.

Does not own: the stack.
-/

set_option autoImplicit false

namespace StackMachine.Machine

/-! ## Within one instruction -/

theorem fetchInstruction_fetchEnd
    {chunk : Chunk} {start state : Machine} {instruction : Instruction}
    (fetched : (fetchInstruction chunk).run start = .ok instruction state) :
    state.cursor = chunk.fetchEnd start.cursor := by
  obtain ⟨decoded, rfl⟩ := (run_fetchInstruction_eq_ok_iff chunk start state instruction).mp fetched
  rw [Chunk.fetchEnd_of_decode decoded]

/-- In the course of an instruction the cursor is between the places where the instruction starts
and where its bytes end. -/
theorem Visits.cursor_between
    {chunk : Chunk} {start state : Machine}
    (visits : Visits chunk start state) :
    start.cursor ≤ state.cursor ∧ state.cursor ≤ chunk.fetchEnd start.cursor := by
  have forward := chunk.le_fetchEnd start.cursor
  cases visits with
  | start => exact ⟨Nat.le_refl _, forward⟩
  | opcode fetched =>
      obtain ⟨rfl, inside⟩ := fetchByte_cursor fetched
      exact ⟨Nat.le_succ _, chunk.lt_fetchEnd inside⟩
  | instruction fetched =>
      have atEnd := fetchInstruction_fetchEnd fetched
      omega
  | operand fetched looked _ popped =>
      have atEnd := fetchInstruction_fetchEnd fetched
      have sameCursor := pop_cursor popped
      rw [top_unchanged looked] at sameCursor
      omega
  | fault stepped =>
      have atEnd := cursor_of_step_error stepped
      omega

/-! ## Whole loops -/

namespace Loops

variable {chunk : Chunk} {first : Machine} {outcome : Run}

/-- Every instruction but the last takes a byte of the code that is ahead. -/
theorem length_starts_le (loops : Loops chunk first outcome) :
    outcome.starts.length ≤ chunk.size - first.cursor + 1 := by
  induction loops with
  | error _ => exact Nat.le_add_left 1 _
  | halt _ => exact Nat.le_add_left 1 _
  | next stepped _ inductionHypothesis =>
      have moved := step_cursor stepped
      rw [List.length_cons]
      omega

theorem cursor_le_of_mem
    (loops : Loops chunk first outcome)
    (inCode : first.cursor ≤ chunk.size) :
    ∀ start ∈ outcome.starts, start.cursor ≤ chunk.size :=
  loops.forall_mem_starts inCode fun _ _ _ stepped => (step_cursor stepped).2

theorem final_cursor_le
    (loops : Loops chunk first outcome)
    (inCode : first.cursor ≤ chunk.size) :
    outcome.final.cursor ≤ chunk.size := by
  induction loops with
  | error stepped =>
      rw [cursor_of_step_error stepped]
      exact chunk.fetchEnd_le inCode
  | halt stepped => exact (step_cursor stepped).2
  | next stepped _ inductionHypothesis => exact inductionHypothesis (step_cursor stepped).2

end Loops

/-! ## Cursors of limited range -/

/-- The fetch of a byte with a cursor that counts modulo `capacity`, as a word of that many values
does. -/
def fetchByteWrapping (capacity : Nat) (chunk : Chunk) : Action UInt8 := do
  let machine ← get
  match chunk.code[machine.cursor]? with
  | none => throw .unexpectedEnd
  | some byte =>
      set { machine with cursor := (machine.cursor + 1) % capacity }
      return byte

/-- A cursor that can hold the size of the code never wraps, wherever it stands. -/
theorem fetchByteWrapping_eq {chunk : Chunk} {capacity : Nat} (fits : chunk.size < capacity) :
    fetchByteWrapping capacity chunk = fetchByte chunk := by
  funext machine
  change (fetchByteWrapping capacity chunk).run machine = (fetchByte chunk).run machine
  rw [run_fetchByte]
  simp only [fetchByteWrapping, EStateM.run_bind, EStateM.run_get]
  cases here : chunk.code[machine.cursor]? with
  | none => rfl
  | some byte =>
      have inside : machine.cursor < chunk.size := lt_size_of_getElem? here
      have noWrap : (machine.cursor + 1) % capacity = machine.cursor + 1 :=
        Nat.mod_eq_of_lt (by omega)
      rw [noWrap]
      rfl

/-! ## Progress -/

/-- What the cursor does while the loop runs `chunk`, when it is entered with `first`. -/
structure Progresses (chunk : Chunk) (first : Machine) : Prop where
  /-- The loop has an end, and only one. -/
  loops_iff : ∀ outcome, Loops chunk first outcome ↔ outcome = first.run chunk
  starts_le : (first.run chunk).starts.length ≤ chunk.size + 1
  /-- An instruction after which the loop goes on moves the cursor by its size. -/
  advances : (first.run chunk).starts.IsChain fun start next =>
    ∃ instruction ready,
      (fetchInstruction chunk).run start = .ok instruction ready ∧
        (execute chunk instruction).run ready = .ok .next next ∧
        0 < instruction.operation.size ∧
        next.cursor = start.cursor + instruction.operation.size
  /-- The cursor never moves back, neither within an instruction nor from one to the next. -/
  ascends : ((first.run chunk).starts ++ [(first.run chunk).final]).IsChain fun start next =>
    ∀ state, Visits chunk start state →
      start.cursor ≤ state.cursor ∧ state.cursor ≤ next.cursor
  /-- The cursor never passes the end of the code, neither within an instruction nor after the
  last. -/
  cursor_le : ∀ start ∈ (first.run chunk).starts, ∀ state, Visits chunk start state →
    state.cursor ≤ chunk.size
  final_cursor_le : (first.run chunk).final.cursor ≤ chunk.size
  /-- Each byte is fetched inside the code, whether it is an opcode or an operand. -/
  fetches : ∀ machine byte after, (fetchByte chunk).run machine = .ok byte after →
    after.cursor = machine.cursor + 1 ∧ after.cursor ≤ chunk.size
  /-- No increment overflows a cursor that can hold the size of the code. -/
  unwrapped : ∀ capacity, chunk.size < capacity →
    fetchByteWrapping capacity chunk = fetchByte chunk

/-- The loop ends on every code, with a `Return` or without, whatever stack it is entered with.  It
starts at most one instruction for each byte and one more, and on its way the cursor stays inside
the code and never goes back. -/
theorem run_progresses (chunk : Chunk) (first : Machine) (atStart : first.cursor = 0) :
    Progresses chunk first := by
  have loops := loops_run first chunk
  have inCode : first.cursor ≤ chunk.size := by omega
  refine
    { loops_iff := ?_, starts_le := ?_, advances := ?_, ascends := ?_, cursor_le := ?_,
      final_cursor_le := loops.final_cursor_le inCode, fetches := ?_,
      unwrapped := fun _ => fetchByteWrapping_eq }
  · intro outcome
    constructor
    · exact Loops.eq_run
    · rintro rfl
      exact loops
  · have bound := loops.length_starts_le
    omega
  · apply loops.isChain_starts.imp
    intro start next stepped
    obtain ⟨instruction, decoded, executed⟩ := step_eq_ok_iff.mp stepped
    refine ⟨instruction, _, ?_, executed, instruction.operation.size_pos, execute_cursor executed⟩
    exact (run_fetchInstruction_eq_ok_iff chunk start _ instruction).mpr ⟨decoded, rfl⟩
  · apply loops.isChain_fetchEnd.imp
    intro start next atEnd state visits
    rw [atEnd]
    exact visits.cursor_between
  · intro start member state visits
    have startInCode := loops.cursor_le_of_mem inCode start member
    exact visits.cursor_between.2.trans (chunk.fetchEnd_le startInCode)
  · intro machine byte after fetched
    obtain ⟨rfl, inside⟩ := fetchByte_cursor fetched
    exact ⟨rfl, inside⟩

/-- Two negations, and nothing after them. -/
def twoNegations : Chunk where
  code := #[1, 1]
  lines := #[1, 1]

/-- On a machine that already holds a number, both negations are executed and a third instruction is
started at the end of the code.  No loop over two bytes starts more. -/
theorem twoNegations_progresses :
    let first : Machine := { stack := [.number (.ofBits 0x3ff3333333333333)], stackLimit := 1 }
    first.cursor = 0 ∧
      (first.run twoNegations).starts.map cursor = [0, 1, 2] ∧
      (first.run twoNegations).starts.length = twoNegations.size + 1 ∧
      (first.run twoNegations).final.cursor = 2 ∧
      Progresses twoNegations first := by
  intro first
  have progresses := run_progresses twoNegations first rfl
  have cursors : (first.run twoNegations).starts.map cursor = [0, 1, 2] := by decide +kernel
  have started : (first.run twoNegations).starts.length = 3 := by
    rw [← List.length_map cursor, cursors]
    rfl
  exact ⟨rfl, cursors, started, by decide +kernel, progresses⟩

end StackMachine.Machine
