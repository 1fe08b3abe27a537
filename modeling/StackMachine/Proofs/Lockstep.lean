import StackMachine.Machine.Trace
import StackMachine.Proofs.Dispatch
import StackMachine.Proofs.Tiling

/-!
Contract: interpretation and disassembly take the same steps through a chunk.

The machine moves its cursor as it fetches, and the disassembly computes where its next listing
starts.  Both cut the code into the same pieces, so a run is followed by reading the listings from
the top until it ends.

Owns: `InStep`, the agreement of an interpretation and its trace with a list of listings, and that
it holds of every interpretation and the listings of its chunk.
Does not own: the listings after the place where a run ends.
-/

set_option autoImplicit false

namespace StackMachine.Machine

/-- The interpretation went on to the end of the code and found no instruction there. -/
def Interpretation.RunsOff (chunk : Chunk) (interpretation : Interpretation) : Prop :=
  ∃ line,
    interpretation.result =
      .error (.runtime { fault := .unexpectedEnd, offset := chunk.size, line })

/-- The states of an interpretation follow the listings from the first one on.  `visited` are those
with a listing; `beyond` is the attempt past the last listing, if it is made. -/
structure InStep
    (chunk : Chunk)
    (interpretation : Interpretation)
    (listings : List Listing)
    (visited beyond : List Machine) : Prop where
  starts_eq : interpretation.starts = visited ++ beyond
  visited_le : visited.length ≤ listings.length
  offsets : visited.map cursor = (listings.take visited.length).map Listing.offset
  beyond_iff :
    (interpretation.RunsOff chunk ∧ visited.length = listings.length ∧
        beyond.map cursor = [chunk.size]) ∨
      (¬ interpretation.RunsOff chunk ∧ beyond = [])
  fetched : ∀ (position : Nat) (state after : Machine) (instruction : Instruction),
    interpretation.starts[position]? = some state →
      (fetchInstruction chunk).run state = .ok instruction after →
        ∃ listing : Listing, (listings.take visited.length)[position]? = some listing ∧
          listing.decoded = .ok instruction
  stops : ∀ (position : Nat) (listing : Listing),
    listings[position]? = some listing →
      (listing.decoded = .ok .ret ∨ ∃ error, listing.decoded = .error error) →
        interpretation.starts.length ≤ position + 1
  trace_eq :
    interpretation.trace chunk =
      s!"Interpreting {chunk.size} bytes of bytecode.\n" ++
        String.join
          (List.zipWith (fun state listing => s!"{state.text}\n{listing.text}\n") visited
            (listings.take visited.length)) ++
        String.join (beyond.map fun state => s!"{state.text}\n")

/-! ## Walks -/

/-- The listing of what a machine is about to fetch. -/
def upcoming (chunk : Chunk) (machine : Machine) : Listing :=
  chunk.listingAt machine.cursor

theorem cursor_lt_size_of_decode
    {chunk : Chunk} {offset : Nat} {instruction : Instruction}
    (decoded : Instruction.decode chunk.code offset = .ok instruction) :
    offset < chunk.size := by
  have fits : _ ≤ chunk.size := size_le_of_decode decoded
  have sizePos := instruction.operation.size_pos
  omega

theorem Walk.listingsFrom_eq
    {chunk : Chunk} {first last : Machine} {steps : List (Machine × Instruction)}
    (walk : Walk chunk first steps last) :
    chunk.listingsFrom first.cursor =
      (steps.map Prod.fst).map (upcoming chunk) ++ chunk.listingsFrom last.cursor := by
  induction walk with
  | nil => rfl
  | @cons machine _ instruction _ _ decoded _ _ inductionHypothesis =>
      rw [chunk.listingsFrom_of_lt (cursor_lt_size_of_decode decoded),
        Chunk.nextOffset_of_decode decoded]
      exact congrArg (chunk.listingAt machine.cursor :: ·) inductionHypothesis

theorem Walk.decode_of_mem
    {chunk : Chunk} {first last state : Machine} {instruction : Instruction}
    {steps : List (Machine × Instruction)}
    (walk : Walk chunk first steps last)
    (member : (state, instruction) ∈ steps) :
    Instruction.decode chunk.code state.cursor = .ok instruction ∧ instruction ≠ .ret := by
  induction walk with
  | nil => cases member
  | cons decoded executes _ inductionHypothesis =>
      rcases List.mem_cons.mp member with isFirst | inRest
      · cases isFirst
        refine ⟨decoded, ?_⟩
        intro isReturn
        subst isReturn
        cases executes
      · exact inductionHypothesis inRest

/-- A walk has not gone past a listing that shows a `Return` or no instruction at all. -/
theorem Walk.length_le_of_stopping
    {chunk : Chunk} {first last : Machine} {steps : List (Machine × Instruction)}
    {position : Nat} {listing : Listing}
    (walk : Walk chunk first steps last)
    (listed : (chunk.listingsFrom first.cursor)[position]? = some listing)
    (stopping : listing.decoded = .ok .ret ∨ ∃ error, listing.decoded = .error error) :
    steps.length ≤ position := by
  apply Nat.not_lt.mp
  intro passed
  have inSteps : position < ((steps.map Prod.fst).map (upcoming chunk)).length := by
    rw [List.length_map, List.length_map]
    exact passed
  rw [walk.listingsFrom_eq, List.getElem?_append_left inSteps] at listed
  obtain ⟨state, visited, rfl⟩ := List.mem_map.mp (List.mem_of_getElem? listed)
  obtain ⟨⟨_, instruction⟩, member, rfl⟩ := List.mem_map.mp visited
  obtain ⟨decoded, notReturn⟩ := walk.decode_of_mem member
  change Instruction.decode _ _ = _ ∨ ∃ _, Instruction.decode _ _ = _ at stopping
  rw [decoded] at stopping
  rcases stopping with isReturn | ⟨_, isError⟩
  · exact notReturn (Except.ok.inj isReturn)
  · cases isError

/-- The states before the instructions of a walk, and the last one, stand at the first listings.
Only the last one can have come to the end of the code. -/
theorem Walk.exists_visited
    {chunk : Chunk} {machine last : Machine} {steps : List (Machine × Instruction)}
    (walk : Walk chunk machine.reset steps last) :
    ∃ visited beyond rest,
      steps.map Prod.fst ++ [last] = visited ++ beyond ∧
      chunk.listingsFrom 0 = visited.map (upcoming chunk) ++ rest ∧
      (∀ state ∈ visited, state.cursor < chunk.size) ∧
      ((beyond = [] ∧ last.cursor < chunk.size) ∨
        (beyond = [last] ∧ rest = [] ∧ last.cursor = chunk.size)) := by
  have listings : chunk.listingsFrom 0 = _ := walk.listingsFrom_eq
  have lastLe : last.cursor ≤ chunk.size := walk.decodes.le_size (Nat.zero_le _)
  have stepsInside : ∀ state ∈ steps.map Prod.fst, state.cursor < chunk.size := by
    intro state member
    obtain ⟨⟨_, instruction⟩, inSteps, rfl⟩ := List.mem_map.mp member
    exact cursor_lt_size_of_decode (walk.decode_of_mem inSteps).1
  by_cases inside : last.cursor < chunk.size
  · refine ⟨steps.map Prod.fst ++ [last], [], chunk.listingsFrom (chunk.nextOffset last.cursor),
      ?_, ?_, ?_, .inl ⟨rfl, inside⟩⟩
    · rw [List.append_nil]
    · rw [listings, chunk.listingsFrom_of_lt inside, List.map_append, List.append_assoc]
      rfl
    · intro state member
      rcases List.mem_append.mp member with inSteps | isLast
      · exact stepsInside state inSteps
      · rw [List.mem_singleton.mp isLast]
        exact inside
  · have atEnd : last.cursor = chunk.size := Nat.le_antisymm lastLe (Nat.not_lt.mp inside)
    refine ⟨steps.map Prod.fst, [last], [], rfl, ?_, stepsInside, .inr ⟨rfl, rfl, atEnd⟩⟩
    rw [listings, chunk.listingsFrom_of_le (Nat.le_of_eq atEnd.symm)]

/-! ## Interpretations -/

theorem runsOff_iff_of_walk
    {chunk : Chunk} {machine last : Machine} {steps : List (Machine × Instruction)}
    (walk : Walk chunk machine.reset steps last)
    (ended : last.Ends chunk) :
    (machine.interpret chunk).RunsOff chunk ↔ last.cursor = chunk.size := by
  unfold Interpretation.RunsOff
  rcases ended with decoded | ⟨fault, blocked⟩
  · rw [interpret_of_ret walk decoded]
    have inside := cursor_lt_size_of_decode decoded
    constructor
    · intro runsOff
      obtain ⟨_, failed⟩ := runsOff
      cases failed
    · intro atEnd
      omega
  · rw [interpret_of_blocked walk blocked]
    constructor
    · intro runsOff
      obtain ⟨_, failed⟩ := runsOff
      injection failed with sameError
      injection sameError with same
      exact congrArg RuntimeError.offset same
    · intro atEnd
      have noCode : Blocked chunk last.stackLimit last.cursor last.stack .unexpectedEnd :=
        .endOfCode (Nat.le_of_eq atEnd.symm)
      rw [blocked.unique noCode, atEnd]
      exact ⟨_, rfl⟩

theorem traceEntry_inside
    {chunk : Chunk} {state : Machine} (inside : state.cursor < chunk.size) :
    traceEntry chunk state = s!"{state.text}\n{(upcoming chunk state).text}\n" := by
  rw [traceEntry, if_pos inside]
  simp only [upcoming, toString, String.append_assoc]

theorem traceEntry_outside
    {chunk : Chunk} {state : Machine} (outside : chunk.size ≤ state.cursor) :
    traceEntry chunk state = s!"{state.text}\n" := by
  rw [traceEntry, if_neg (Nat.not_lt.mpr outside)]
  simp only [toString, String.append_empty]

theorem trace_of_starts
    {chunk : Chunk} {interpretation : Interpretation} {visited beyond : List Machine}
    (starts : interpretation.starts = visited ++ beyond)
    (inside : ∀ state ∈ visited, state.cursor < chunk.size)
    (outside : ∀ state ∈ beyond, chunk.size ≤ state.cursor) :
    interpretation.trace chunk =
      s!"Interpreting {chunk.size} bytes of bytecode.\n" ++
        String.join (visited.map fun state => s!"{state.text}\n{(upcoming chunk state).text}\n") ++
        String.join (beyond.map fun state => s!"{state.text}\n") := by
  change _ ++ String.join (interpretation.starts.map (traceEntry chunk)) = _
  rw [starts, List.map_append, String.join_append, ← String.append_assoc,
    List.map_congr_left fun state member => traceEntry_inside (inside state member),
    List.map_congr_left fun state member => traceEntry_outside (outside state member)]

/-- What is fetched at some position of the starts is fetched before the end of the code. -/
theorem visited_of_fetchInstruction
    {chunk : Chunk} {visited beyond : List Machine} {position : Nat} {state after : Machine}
    {instruction : Instruction}
    (outside : ∀ state ∈ beyond, chunk.size ≤ state.cursor)
    (started : (visited ++ beyond)[position]? = some state)
    (fetched : (fetchInstruction chunk).run state = .ok instruction after) :
    visited[position]? = some state := by
  by_cases isVisited : position < visited.length
  · rwa [List.getElem?_append_left isVisited] at started
  · rw [List.getElem?_append_right (Nat.not_lt.mp isVisited)] at started
    have pastEnd := outside state (List.mem_of_getElem? started)
    have beforeEnd := cursor_lt_size_of_decode (decode_of_fetchInstruction fetched)
    omega

/-- Every interpretation tells what the loop has done, and it is in step with the listings of its
chunk. -/
theorem interpret_inStep (machine : Machine) (chunk : Chunk) (name : String) :
    (machine.interpret chunk).Records chunk machine.reset ∧
      ∃ visited beyond,
        InStep chunk (machine.interpret chunk) (chunk.disassemble name).listings visited beyond := by
  refine ⟨machine.interpret_records chunk, ?_⟩
  obtain ⟨steps, last, walk, ended⟩ := exists_walk_to_end chunk machine.bounded_reset
  obtain ⟨visited, beyond, rest, split, listings, inside, ending⟩ := walk.exists_visited
  have starts := (walk.starts_eq ended).trans split
  have runsOff := runsOff_iff_of_walk walk ended
  have outside : ∀ state ∈ beyond, chunk.size ≤ state.cursor := by
    intro state member
    rcases ending with ⟨rfl, _⟩ | ⟨rfl, _, atEnd⟩
    · cases member
    · rw [List.mem_singleton.mp member]
      exact Nat.le_of_eq atEnd.symm
  have taken : (chunk.disassemble name).listings.take visited.length =
      visited.map (upcoming chunk) := by
    rw [Chunk.disassemble, listings, List.take_left' (List.length_map _)]
  refine ⟨visited, beyond, starts, ?_, ?_, ?_, ?_, ?_, ?_⟩
  · rw [Chunk.disassemble, listings, List.length_append, List.length_map]
    exact Nat.le_add_right _ _
  · rw [taken, List.map_map]
    rfl
  · rcases ending with ⟨rfl, lastInside⟩ | ⟨rfl, rfl, atEnd⟩
    · refine .inr ⟨?_, rfl⟩
      intro ranOff
      exact absurd (runsOff.mp ranOff) (Nat.ne_of_lt lastInside)
    · refine .inl ⟨runsOff.mpr atEnd, ?_, ?_⟩
      · rw [Chunk.disassemble, listings, List.append_nil, List.length_map]
      · rw [List.map_singleton, atEnd]
  · intro position state after instruction started fetched
    rw [starts] at started
    refine ⟨upcoming chunk state, ?_, decode_of_fetchInstruction fetched⟩
    rw [taken, List.getElem?_map, visited_of_fetchInstruction outside started fetched]
    rfl
  · intro position listing listed stopping
    rw [walk.starts_eq ended, List.length_append, List.length_map, List.length_singleton]
    exact Nat.succ_le_succ (walk.length_le_of_stopping listed stopping)
  · rw [trace_of_starts starts inside outside, taken, List.zipWith_map_right, List.zipWith_self]

end StackMachine.Machine
