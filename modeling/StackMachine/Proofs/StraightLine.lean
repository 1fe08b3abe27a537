import StackMachine.Proofs.Walk

/-!
Contract: successful interpretations in closed form.

The machine has no branches, so what a chunk computes can be read off its code without running it:
each loaded constant is left on the stack, negated as often as negations follow it directly.

Owns:
- `ReturnsAfter`, the condition on code, pool and stack limit under which a chunk is interpreted
  without a fault;
- `loads`, the values that such a chunk leaves behind;
- that both are exact.

Does not own: what an interpretation that fails reports.
-/

set_option autoImplicit false

namespace StackMachine

/-! ## Negation of a word -/

/-- The number whose word differs in the sign bit and nowhere else. -/
def Number.flipSign (datum : Number) : Number :=
  .ofBits (datum.toBits ^^^ BitVec.intMin 64)

theorem Number.neg_eq_flipSign (datum : Number) : -datum = datum.flipSign := by
  have fields := datum.ofBits_toBits
  have sign : datum.toBits.msb = datum.sign := congrArg Number.sign fields
  have exponent : datum.toBits.extractLsb' 52 11 = datum.exponent :=
    congrArg Number.exponent fields
  have fraction : datum.toBits.extractLsb' 0 52 = datum.fraction :=
    congrArg Number.fraction fields
  have maskExponent : (BitVec.intMin 64).extractLsb' 52 11 = 0 := by decide
  have maskFraction : (BitVec.intMin 64).extractLsb' 0 52 = 0 := by decide
  simp only [flipSign, ofBits, BitVec.msb_xor, BitVec.extractLsb'_xor, sign, exponent, fraction,
    maskExponent, maskFraction]
  simp [Neg.neg, BitVec.msb_intMin]

/-- A value after `count` negations; only numbers have a sign. -/
def Value.afterNegations (count : Nat) : Value → Value
  | .number datum => .number (if count % 2 = 1 then datum.flipSign else datum)
  | value => value

@[simp] theorem Value.afterNegations_zero : Value.afterNegations 0 = id := by
  funext value
  cases value <;> rfl

theorem Value.afterNegations_succ (count : Nat) (datum : Number) :
    (Value.number datum).afterNegations (count + 1) =
      (Value.number (-datum)).afterNegations count := by
  have twice : (-datum).flipSign = datum := by
    rw [← Number.neg_eq_flipSign, Number.neg_neg]
  rcases Nat.mod_two_eq_zero_or_one count with even | odd
  · have oddNext : (count + 1) % 2 = 1 := by omega
    simp only [afterNegations, even, oddNext, Number.neg_eq_flipSign]
    rfl
  · have evenNext : (count + 1) % 2 = 0 := by omega
    simp only [afterNegations, odd, evenNext, twice]
    rfl

/-! ## Loads -/

def Instruction.isLoad : Instruction → Bool
  | .constant _ => true
  | .negate => false
  | .ret => false

/-- The number of negations before anything else. -/
def leadingNegations (body : List Instruction) : Nat :=
  (body.takeWhile (· == .negate)).length

/-- One value for each constant that is loaded, in program order: the pool entry after the
negations between this constant and the next. -/
def loads (chunk : Chunk) : List Instruction → List (Option Value)
  | [] => []
  | .constant index :: rest =>
      (chunk.constant? index).map (Value.afterNegations (leadingNegations rest)) ::
        loads chunk rest
  | _ :: rest => loads chunk rest

@[simp] theorem leadingNegations_nil : leadingNegations [] = 0 := rfl

@[simp] theorem leadingNegations_constant (index : UInt8) (rest : List Instruction) :
    leadingNegations (.constant index :: rest) = 0 := rfl

@[simp] theorem leadingNegations_negate (rest : List Instruction) :
    leadingNegations (.negate :: rest) = leadingNegations rest + 1 := by
  simp [leadingNegations]

/-- What a stack holds after `body`: the loaded values above what was there before, whose top the
leading negations have reached. -/
theorem ExecutesAll.map_some_eq
    {chunk : Chunk} {limit : Nat} {body : List Instruction} {before after : List Value}
    (executes : ExecutesAll chunk limit body before after) :
    after.map some =
      (loads chunk body).reverse ++
        (before.modifyHead (Value.afterNegations (leadingNegations body))).map some := by
  induction executes with
  | nil stack => simp [loads]
  | cons first others inductionHypothesis =>
      rw [inductionHypothesis]
      cases first with
      | constant found _ => simp [loads, found]
      | negate => simp [loads, Value.afterNegations_succ]

/-! ## Executability -/

/-- Conditions under which `body` can be executed on a stack of `depth` values, its first
instruction apart. -/
structure Loadable (chunk : Chunk) (limit depth : Nat) (body : List Instruction) : Prop where
  noReturn : .ret ∉ body
  inPool : ∀ index, .constant index ∈ body → index.toNat < chunk.constants.size
  fits : depth + body.countP Instruction.isLoad ≤ limit
  numeric : ∀ index, [.constant index, .negate] <:+: body →
    ∃ datum, chunk.constant? index = some (.number datum)

theorem loadable_nil_iff (chunk : Chunk) (limit depth : Nat) :
    Loadable chunk limit depth [] ↔ depth ≤ limit := by
  constructor
  · intro loadable
    exact loadable.fits
  · intro fits
    exact ⟨by simp, by simp, fits, by simp⟩

theorem Loadable.tail
    {chunk : Chunk} {limit depth : Nat} {instruction : Instruction} {body : List Instruction}
    (loadable : Loadable chunk limit depth (instruction :: body)) :
    Loadable chunk limit (depth + [instruction].countP Instruction.isLoad) body := by
  refine ⟨?_, ?_, ?_, ?_⟩
  · intro member
    exact loadable.noReturn (List.mem_cons_of_mem _ member)
  · intro index member
    exact loadable.inPool index (List.mem_cons_of_mem _ member)
  · rw [Nat.add_assoc, ← List.countP_append]
    exact loadable.fits
  · intro index pair
    exact loadable.numeric index (pair.trans (List.suffix_cons _ _).isInfix)

theorem loadable_negate_iff (chunk : Chunk) (limit depth : Nat) (body : List Instruction) :
    Loadable chunk limit depth (.negate :: body) ↔ Loadable chunk limit depth body := by
  constructor
  · exact Loadable.tail
  · intro loadable
    refine ⟨?_, ?_, loadable.fits, ?_⟩
    · simpa using loadable.noReturn
    · simpa using loadable.inPool
    · intro index pair
      rcases List.infix_cons_iff.mp pair with atHead | inBody
      · simp at atHead
      · exact loadable.numeric index inBody

theorem loadable_constant_iff
    (chunk : Chunk) (limit depth : Nat) (index : UInt8) (body : List Instruction) :
    Loadable chunk limit depth (.constant index :: body) ↔
      ∃ value, chunk.constant? index = some value ∧
        (body.head? = some .negate → value.kind = .number) ∧
        Loadable chunk limit (depth + 1) body := by
  constructor
  · intro loadable
    have inside := loadable.inPool index (by simp)
    have found : chunk.constant? index = some _ := Array.getElem?_eq_getElem inside
    refine ⟨_, found, ?_, loadable.tail⟩
    intro negated
    obtain ⟨rest, rfl⟩ := List.head?_eq_some_iff.mp negated
    obtain ⟨datum, isNumber⟩ := loadable.numeric index ⟨[], rest, rfl⟩
    rw [found] at isNumber
    rw [Option.some.inj isNumber]
    rfl
  · intro found
    obtain ⟨value, found, negatable, loadable⟩ := found
    refine ⟨?_, ?_, ?_, ?_⟩
    · simpa using loadable.noReturn
    · intro other member
      rcases List.mem_cons.mp member with isHead | inBody
      · cases isHead
        exact (Array.getElem?_eq_some_iff.mp found).1
      · exact loadable.inPool other inBody
    · rw [← List.singleton_append, List.countP_append, ← Nat.add_assoc]
      exact loadable.fits
    · intro other pair
      rcases List.infix_cons_iff.mp pair with atHead | inBody
      · obtain ⟨rest, shape⟩ := atHead
        cases shape
        obtain ⟨datum, rfl⟩ := Value.exists_eq_number (negatable rfl)
        exact ⟨datum, found⟩
      · exact loadable.numeric other inBody

/-- What is negated first has been a number. -/
theorem ExecutesAll.number_of_head_negate
    {chunk : Chunk} {limit : Nat} {body : List Instruction} {before after : List Value}
    (executes : ExecutesAll chunk limit body before after)
    (negated : body.head? = some .negate) :
    ∃ datum rest, before = .number datum :: rest := by
  obtain ⟨_, rfl⟩ := List.head?_eq_some_iff.mp negated
  cases executes with
  | cons first _ =>
      cases first with
      | negate => exact ⟨_, _, rfl⟩

theorem ExecutesAll.loadable
    {chunk : Chunk} {limit : Nat} {body : List Instruction} {before after : List Value}
    (executes : ExecutesAll chunk limit body before after)
    (bounded : before.length ≤ limit) :
    Loadable chunk limit before.length body := by
  induction executes with
  | nil stack => exact (loadable_nil_iff chunk limit stack.length).mpr bounded
  | cons first others inductionHypothesis =>
      have rest := inductionHypothesis (first.length_le bounded)
      cases first with
      | @constant index value stack found room =>
          refine (loadable_constant_iff _ _ _ _ _).mpr ⟨value, found, ?_, rest⟩
          intro negated
          obtain ⟨datum, _, onTop⟩ := others.number_of_head_negate negated
          cases onTop
          rfl
      | negate => exact (loadable_negate_iff _ _ _ _).mpr rest

/-- A loadable body can be executed unless its first instruction negates what is no number. -/
theorem exists_executesAll
    {chunk : Chunk} {limit : Nat} {body : List Instruction} {stack : List Value}
    (loadable : Loadable chunk limit stack.length body)
    (negatable : body.head? = some .negate → ∃ datum rest, stack = .number datum :: rest) :
    ∃ after, ExecutesAll chunk limit body stack after := by
  induction body generalizing stack with
  | nil => exact ⟨stack, .nil stack⟩
  | cons instruction rest inductionHypothesis =>
      cases instruction with
      | constant index =>
          obtain ⟨value, found, isNumber, others⟩ := (loadable_constant_iff _ _ _ _ _).mp loadable
          have room : stack.length < limit := by
            have fits := others.fits
            omega
          have executable : ∃ after, ExecutesAll chunk limit rest (value :: stack) after := by
            apply @inductionHypothesis (value :: stack) others
            intro negated
            obtain ⟨datum, rfl⟩ := Value.exists_eq_number (isNumber negated)
            exact ⟨datum, stack, rfl⟩
          obtain ⟨after, executes⟩ := executable
          exact ⟨after, .cons (.constant found room) executes⟩
      | negate =>
          obtain ⟨datum, below, rfl⟩ := negatable rfl
          have executable :
              ∃ after, ExecutesAll chunk limit rest (.number (-datum) :: below) after := by
            apply @inductionHypothesis (.number (-datum) :: below)
              ((loadable_negate_iff _ _ _ _).mp loadable)
            intro negated
            exact ⟨-datum, below, rfl⟩
          obtain ⟨after, executes⟩ := executable
          exact ⟨after, .cons .negate executes⟩
      | ret => exact absurd (List.mem_cons_self ..) loadable.noReturn

/-! ## Interpretations that succeed -/

/-- The code is `body`, which can be executed on an empty stack, and then a `Return` that ends at
`stop`. -/
structure ReturnsAfter (chunk : Chunk) (limit : Nat) (body : List Instruction) (stop : Nat) : Prop
    extends Loadable chunk limit 0 body where
  decodes : Decodes chunk.code 0 (body ++ [.ret]) stop
  firstNotNegate : body.head? ≠ some .negate

theorem returnsAfter_iff (chunk : Chunk) (limit : Nat) (body : List Instruction) (stop : Nat) :
    ReturnsAfter chunk limit body stop ↔
      Decodes chunk.code 0 (body ++ [.ret]) stop ∧
        ∃ stack, ExecutesAll chunk limit body [] stack := by
  constructor
  · intro returns
    refine ⟨returns.decodes, exists_executesAll returns.toLoadable ?_⟩
    intro negated
    exact absurd negated returns.firstNotNegate
  · intro executable
    obtain ⟨decodes, stack, executes⟩ := executable
    refine ⟨executes.loadable (Nat.zero_le limit), decodes, ?_⟩
    intro negated
    obtain ⟨_, _, onTop⟩ := executes.number_of_head_negate negated
    cases onTop

namespace Machine

theorem interpret_of_returnsAfter
    {machine : Machine} {chunk : Chunk} {body : List Instruction} {stop : Nat}
    (returns : ReturnsAfter chunk machine.stackLimit body stop) :
    ∃ stack starts,
      ExecutesAll chunk machine.stackLimit body [] stack ∧
        machine.interpret chunk =
          { result := .ok ()
            machine :=
              { cursor := stop, stackLimit := machine.stackLimit, residue := stack.reverse }
            starts } := by
  obtain ⟨decodes, stack, executes⟩ := (returnsAfter_iff _ _ _ _).mp returns
  obtain ⟨middle, bodyDecodes, decoded, atStop⟩ := (decodes_append_iff _ _ _ _ _).mp decodes
  obtain ⟨steps, _, walk⟩ := @exists_walk chunk body machine.reset middle stack bodyDecodes executes
  cases atStop
  exact ⟨stack, _, executes, interpret_of_ret walk decoded⟩

theorem exists_returnsAfter
    {machine : Machine} {chunk : Chunk}
    (succeeded : (machine.interpret chunk).result = .ok ()) :
    ∃ body stop, ReturnsAfter chunk machine.stackLimit body stop := by
  obtain ⟨steps, last, walk, ended⟩ := exists_walk_to_end chunk machine.bounded_reset
  rcases ended with decoded | ⟨fault, blocked⟩
  · refine ⟨steps.map Prod.snd, last.cursor + 1, (returnsAfter_iff _ _ _ _).mpr ⟨?_, ?_⟩⟩
    · exact (decodes_append_iff _ _ _ _ _).mpr ⟨last.cursor, walk.decodes, decoded, rfl⟩
    · exact ⟨last.stack, walk.executesAll⟩
  · rw [interpret_of_blocked walk blocked] at succeeded
    cases succeeded

/-- A chunk is interpreted without a fault exactly when its code is loads and negations that can be
executed, and then a `Return`.  It leaves behind the loaded values. -/
theorem interpret_ok_iff_returnsAfter (machine : Machine) (chunk : Chunk) :
    ((machine.interpret chunk).result = .ok () ↔
      ∃ body stop, ReturnsAfter chunk machine.stackLimit body stop) ∧
    ∀ body stop, ReturnsAfter chunk machine.stackLimit body stop →
      (machine.interpret chunk).machine.residue.map some = loads chunk body ∧
        (machine.interpret chunk).machine.stack = [] ∧
        (machine.interpret chunk).machine.cursor = stop := by
  refine ⟨⟨exists_returnsAfter, ?_⟩, ?_⟩
  · intro returning
    obtain ⟨body, stop, returns⟩ := returning
    obtain ⟨_, _, _, interpreted⟩ := interpret_of_returnsAfter returns
    rw [interpreted]
  · intro body stop returns
    obtain ⟨stack, _, executes, interpreted⟩ := interpret_of_returnsAfter returns
    rw [interpreted]
    refine ⟨?_, rfl, rfl⟩
    have values := executes.map_some_eq
    rw [List.modifyHead_nil, List.map_nil, List.append_nil] at values
    rw [List.map_reverse, values, List.reverse_reverse]

/-- Operands that look like opcodes, a number negated once, one negated twice, a value that is no
number, and bytes after the `Return` that are never read. -/
def mixedLoads : Chunk where
  code := #[0, 2, 1, 0, 1, 0, 0, 1, 1, 2, 0]
  lines := #[1, 1, 1, 2, 2, 3, 3, 3, 3, 4, 4]
  constants := #[.number (.ofBits 0x7ff8000000000001), .nil, .number (.ofBits 0x3ff3333333333333)]

theorem mixedLoads_interpreted :
    let machine : Machine := { cursor := 7, stack := [.nil], stackLimit := 3, residue := [.nil] }
    let body : List Instruction :=
      [.constant 2, .negate, .constant 1, .constant 0, .negate, .negate]
    ReturnsAfter mixedLoads machine.stackLimit body 10 ∧
      (machine.interpret mixedLoads).result = .ok () ∧
      (machine.interpret mixedLoads).machine.residue.map some =
        [some (.number (.ofBits 0xbff3333333333333)), some .nil,
          some (.number (.ofBits 0x7ff8000000000001))] ∧
      (machine.interpret mixedLoads).machine.cursor = 10 := by
  intro machine body
  have returns : ReturnsAfter mixedLoads machine.stackLimit body 10 := by
    refine ⟨⟨by decide, ?_, by decide, ?_⟩, by decide, by decide⟩
    · intro index member
      have isLoaded : index = 2 ∨ index = 1 ∨ index = 0 := by simpa [body] using member
      rcases isLoaded with rfl | rfl | rfl <;> decide
    · intro index pair
      have isNegated : index = 2 ∨ index = 0 := by simpa [body, List.infix_cons_iff] using pair
      rcases isNegated with rfl | rfl
      · exact ⟨.ofBits 0x3ff3333333333333, rfl⟩
      · exact ⟨.ofBits 0x7ff8000000000001, rfl⟩
  obtain ⟨succeeds, leaves⟩ := interpret_ok_iff_returnsAfter machine mixedLoads
  obtain ⟨residue, _, cursor⟩ := leaves body 10 returns
  refine ⟨returns, succeeds.mpr ⟨body, 10, returns⟩, ?_, cursor⟩
  rw [residue]
  decide

end Machine

end StackMachine
