import StackMachine.Machine.Trace
import StackMachine.Proofs.Walk

/-!
Contract: sessions of several machines, and what one interpretation leaves to the next.

A session makes machines and lets them interpret chunks, in any order and as often as it likes.  Of
all this an interpretation sees the limit of its own machine and nothing else, and that limit is
settled when the machine is made.

Owns:
- `Session.Call`, what can be done in a session, with the machines and the limits that follow from
  it;
- `Settled`, the state of a machine after an interpretation;
- that interpretations depend on limit and chunk alone, whatever came before.

Does not own: the outcome of a single interpretation.
-/

set_option autoImplicit false

namespace StackMachine

namespace Session

/-- A call in a session.  Machines are numbered in the order in which they are made. -/
inductive Call where
  | create
  | createWithLimit (limit : Nat)
  | clone (source : Nat)
  | interpret (target : Nat) (chunk : Chunk)
deriving DecidableEq, Repr

/-- The machines after a call.  A call that names no machine changes nothing. -/
def perform (machines : List Machine) : Call → List Machine
  | .create => machines ++ [{ }]
  | .createWithLimit limit => machines ++ [{ stackLimit := limit }]
  | .clone source => machines ++ machines[source]?.toList
  | .interpret target chunk =>
      machines.modify target fun machine => (machine.interpret chunk).machine

/-- The machines of a session, which starts with none. -/
def machines (calls : List Call) : List Machine :=
  calls.foldl perform []

/-- The limits after a call, by the way in which the machines are made: a copy has the limit of its
source, and no interpretation changes any. -/
def record (limits : List Nat) : Call → List Nat
  | .create => limits ++ [defaultStackLimit]
  | .createWithLimit limit => limits ++ [limit]
  | .clone source => limits ++ limits[source]?.toList
  | .interpret _ _ => limits

/-- The limits that the machines of a session are made with. -/
def limits (calls : List Call) : List Nat :=
  calls.foldl record []

end Session

/-! ## After an interpretation -/

namespace Machine

/-- The state in which an interpretation of `chunk` leaves a machine that was made with `limit`. -/
structure Interpretation.Settled
    (chunk : Chunk)
    (limit : Nat)
    (interpretation : Interpretation) : Prop where
  stack : interpretation.machine.stack = []
  residue_le : interpretation.machine.residue.length ≤ limit
  residue_of_failure : interpretation.result ≠ .ok () → interpretation.machine.residue = []
  stackLimit : interpretation.machine.stackLimit = limit
  cursor_le : interpretation.machine.cursor ≤ chunk.size

theorem interpret_settled (machine : Machine) (chunk : Chunk) :
    (machine.interpret chunk).Settled chunk machine.stackLimit := by
  obtain ⟨steps, last, walk, ended⟩ := exists_walk_to_end chunk machine.bounded_reset
  rcases ended with decoded | ⟨fault, blocked⟩
  · rw [interpret_of_ret walk decoded]
    have depth : last.stack.length ≤ machine.stackLimit := by
      have bounded := walk.bounded machine.bounded_reset
      rw [Bounded, walk.stackLimit_eq] at bounded
      exact bounded
    refine ⟨rfl, ?_, ?_, rfl, size_le_of_decode decoded⟩
    · rw [List.length_reverse]
      exact depth
    · intro failed
      exact absurd rfl failed
  · rw [interpret_of_blocked walk blocked]
    have inCode : last.cursor ≤ chunk.size := walk.decodes.le_size (Nat.zero_le _)
    exact ⟨rfl, Nat.zero_le _, fun _ => rfl, rfl, chunk.fetchEnd_le inCode⟩

/-- An interpretation starts from the limit alone. -/
theorem interpret_eq_of_stackLimit_eq
    {left right : Machine}
    (sameLimit : left.stackLimit = right.stackLimit)
    (chunk : Chunk) :
    left.interpret chunk = right.interpret chunk := by
  have sameStart : left.reset = right.reset := by
    rw [reset, reset, sameLimit]
  rw [interpret, interpret, sameStart]

end Machine

namespace Session

/-! ## Limits -/

theorem map_stackLimit_modify (machines : List Machine) (target : Nat) (chunk : Chunk) :
    (machines.modify target fun machine => (machine.interpret chunk).machine).map
        Machine.stackLimit =
      machines.map Machine.stackLimit := by
  apply List.ext_getElem?
  intro position
  rw [List.getElem?_map, List.getElem?_map, List.getElem?_modify]
  cases machines[position]? with
  | none => rfl
  | some machine =>
      change some (Machine.stackLimit (if _ then _ else _)) = some machine.stackLimit
      split
      · rw [(machine.interpret_settled chunk).stackLimit]
      · rfl

theorem map_stackLimit_perform (machines : List Machine) (call : Call) :
    (perform machines call).map Machine.stackLimit =
      record (machines.map Machine.stackLimit) call := by
  cases call with
  | create => exact List.map_append
  | createWithLimit limit => exact List.map_append
  | clone source =>
      rw [perform, record, List.map_append, List.getElem?_map, Option.toList_map]
  | interpret target chunk => exact map_stackLimit_modify machines target chunk

theorem map_stackLimit_foldl_perform (made : List Machine) (calls : List Call) :
    (calls.foldl perform made).map Machine.stackLimit =
      calls.foldl record (made.map Machine.stackLimit) := by
  induction calls generalizing made with
  | nil => rfl
  | cons call calls inductionHypothesis =>
      rw [List.foldl_cons, List.foldl_cons, inductionHypothesis, map_stackLimit_perform]

/-- Every machine of a session has the limit that it was made with. -/
theorem map_stackLimit_machines (calls : List Call) :
    (machines calls).map Machine.stackLimit = limits calls :=
  map_stackLimit_foldl_perform [] calls

theorem getElem?_limits {calls : List Call} {position : Nat} {machine : Machine}
    (isMachine : (machines calls)[position]? = some machine) :
    (limits calls)[position]? = some machine.stackLimit := by
  rw [← map_stackLimit_machines, List.getElem?_map, isMachine]
  rfl

/-! ## Interpretations -/

theorem machines_interpret (calls : List Call) (target : Nat) (chunk : Chunk) :
    machines (calls ++ [.interpret target chunk]) =
      (machines calls).modify target fun machine => (machine.interpret chunk).machine := by
  rw [machines, List.foldl_append]
  rfl

/-- Two machines with one limit, out of any two sessions or moments of a session, interpret a chunk in
the same way, down to the text of the machine afterwards and to the trace.  The limit is the one that
both were made with.  The call settles its own machine and leaves the others as they were. -/
theorem interpret_agrees_and_settles
    (calls otherCalls : List Call)
    (target otherTarget : Nat)
    (machine other : Machine)
    (chunk : Chunk)
    (isTarget : (machines calls)[target]? = some machine)
    (isOther : (machines otherCalls)[otherTarget]? = some other)
    (sameLimit : machine.stackLimit = other.stackLimit) :
    ((machine.interpret chunk).result = (other.interpret chunk).result ∧
      (machine.interpret chunk).machine.residue = (other.interpret chunk).machine.residue ∧
      (machine.interpret chunk).machine.text = (other.interpret chunk).machine.text ∧
      (machine.interpret chunk).trace chunk = (other.interpret chunk).trace chunk) ∧
    (∃ limit,
      (limits calls)[target]? = some limit ∧ (limits otherCalls)[otherTarget]? = some limit ∧
        (machine.interpret chunk).Settled chunk limit) ∧
    (machines (calls ++ [.interpret target chunk]))[target]? =
      some (machine.interpret chunk).machine ∧
    ∀ position, position ≠ target →
      (machines (calls ++ [.interpret target chunk]))[position]? =
        (machines calls)[position]? := by
  have same := Machine.interpret_eq_of_stackLimit_eq sameLimit chunk
  have made := getElem?_limits isTarget
  have otherMade := getElem?_limits isOther
  rw [← sameLimit] at otherMade
  refine ⟨?_, ⟨machine.stackLimit, made, otherMade, machine.interpret_settled chunk⟩, ?_, ?_⟩
  · rw [same]
    exact ⟨rfl, rfl, rfl, rfl⟩
  · rw [machines_interpret, List.getElem?_modify_eq, isTarget]
    rfl
  · intro position isDifferent
    rw [machines_interpret, List.getElem?_modify_ne _ _ isDifferent.symm]

/-- One load and a `Return`. -/
def oneLoad : Chunk where
  code := #[0, 0, 2]
  lines := #[1, 1, 1]
  constants := #[.nil]

/-- Two loads, and nothing after them. -/
def twoLoads : Chunk where
  code := #[0, 0, 0, 0]
  lines := #[1, 1, 2, 2]
  constants := #[.bool true]

/-- A machine that has succeeded and failed, its copy, and one that has done nothing yet. -/
def mixedSession : List Call :=
  [ .createWithLimit 1, .create, .interpret 0 twoLoads, .interpret 0 oneLoad, .clone 0,
    .interpret 2 twoLoads, .createWithLimit 1 ]

theorem mixedSession_agrees :
    let used : Machine := { cursor := 3, stackLimit := 1, residue := [.nil] }
    let fresh : Machine := { stackLimit := 1 }
    (machines mixedSession)[0]? = some used ∧
      (machines mixedSession)[3]? = some fresh ∧
      (used.interpret twoLoads).result = (fresh.interpret twoLoads).result ∧
      (used.interpret twoLoads).result ≠ .ok () ∧
      (used.interpret twoLoads).machine.residue = [] ∧
      (used.interpret twoLoads).machine.text = (fresh.interpret twoLoads).machine.text ∧
      (used.interpret twoLoads).trace twoLoads = (fresh.interpret twoLoads).trace twoLoads ∧
      (machines (mixedSession ++ [.interpret 0 twoLoads]))[3]? = some fresh := by
  intro used fresh
  have isUsed : (machines mixedSession)[0]? = some used := by decide +kernel
  have isFresh : (machines mixedSession)[3]? = some fresh := by decide +kernel
  have failed : (used.interpret twoLoads).result ≠ .ok () := by decide +kernel
  obtain ⟨⟨result, _, text, trace⟩, ⟨_, _, _, settled⟩, _, others⟩ :=
    interpret_agrees_and_settles mixedSession mixedSession 0 3 used fresh twoLoads isUsed isFresh rfl
  exact ⟨isUsed, isFresh, result, failed, settled.residue_of_failure failed, text, trace,
    (others 3 (by decide)).trans isFresh⟩

end Session

end StackMachine
