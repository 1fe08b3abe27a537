import StackMachine.Proofs.ListingReading

/-!
Contract: what the line column of a listing shows, at any offset.

A bar stands for the line of the byte before, a question mark for no line, and anything else is a
line number.  Two entries that are both missing compare as equal, so this legend holds up to the end
of the code and not beyond: further on, where neither the offset nor the one before it has a byte, a
bar is shown in place of the question mark.

Owns: `ShowsLine`, the legend of the column, and the offsets at which listings keep to it.
Does not own: the lines of whole disassemblies, all of which are inside the code.
-/

set_option autoImplicit false

namespace StackMachine

/-- A question mark says that there is no line, and that no bar hides this. -/
theorem Listing.lineText_eq_questionMark_iff {listing : Listing} :
    listing.lineText = "?" ↔ listing.sameLine = false ∧ listing.line = none := by
  unfold lineText
  split
  · rename_i sameLine
    simp [sameLine]
  · rename_i line _ recorded
    have notDigit : ¬ '?'.isDigit = true := by decide
    have notWritten : toString line ≠ "?" := by
      intro written
      apply toDigits_ne_singleton notDigit line
      rw [← toList_toString_nat, written]
      rfl
    exact iff_of_false notWritten (by simp [recorded])
  · rename_i otherLine missing
    simp [otherLine, missing]

namespace Chunk

/-- There is a byte at `offset` and one just before it, and both are on one line. -/
def ContinuesLine (chunk : Chunk) (offset : Nat) : Prop :=
  0 < offset ∧ offset < chunk.size ∧ chunk.line? offset = chunk.line? (offset - 1)

instance (chunk : Chunk) (offset : Nat) : Decidable (chunk.ContinuesLine offset) := by
  unfold ContinuesLine
  infer_instance

/-- The listing at `offset` keeps to the legend of the line column. -/
structure ShowsLine (chunk : Chunk) (offset : Nat) : Prop where
  bar_iff : (chunk.listingAt offset).lineText = "|" ↔ chunk.ContinuesLine offset
  questionMark_iff : (chunk.listingAt offset).lineText = "?" ↔ chunk.code[offset]? = none
  otherwise : ¬ chunk.ContinuesLine offset → chunk.code[offset]? ≠ none →
    ∃ line, chunk.line? offset = some line ∧
      (chunk.listingAt offset).lineText.toList = Nat.toDigits 10 line

variable {chunk : Chunk} {offset : Nat}

theorem code_eq_none_iff : chunk.code[offset]? = none ↔ chunk.size ≤ offset :=
  Array.getElem?_eq_none_iff

theorem sameLine_iff :
    (chunk.listingAt offset).sameLine = true ↔
      chunk.ContinuesLine offset ∨ chunk.size < offset := by
  rw [sameLine_listingAt_iff, ContinuesLine]
  by_cases inside : offset < chunk.size
  · have notBeyond : ¬ chunk.size < offset := by omega
    simp [inside, notBeyond]
  · -- There is no line at the offset, so the two agree when there is none before it either.
    have missing : chunk.line? offset = none :=
      (chunk.line?_eq_none_iff offset).mpr (Nat.not_lt.mp inside)
    rw [missing, eq_comm, chunk.line?_eq_none_iff]
    omega

theorem lineText_eq_bar_iff :
    (chunk.listingAt offset).lineText = "|" ↔
      chunk.ContinuesLine offset ∨ chunk.size < offset := by
  rw [Listing.lineText_eq_bar_iff, sameLine_iff]

/-- The question mark stands at the end of the code, and nowhere else. -/
theorem lineText_eq_questionMark_iff :
    (chunk.listingAt offset).lineText = "?" ↔ offset = chunk.size := by
  have lineMissing : (chunk.listingAt offset).line = none ↔ chunk.size ≤ offset :=
    chunk.line?_eq_none_iff offset
  rw [Listing.lineText_eq_questionMark_iff, lineMissing, ← Bool.not_eq_true, sameLine_iff,
    ContinuesLine]
  omega

theorem showsLine_of_le (inCode : offset ≤ chunk.size) : chunk.ShowsLine offset where
  bar_iff := by
    rw [lineText_eq_bar_iff]
    exact or_iff_left (Nat.not_lt.mpr inCode)
  questionMark_iff := by
    rw [lineText_eq_questionMark_iff, code_eq_none_iff]
    omega
  otherwise := by
    intro otherLine hasByte
    rw [Ne, code_eq_none_iff, Nat.not_le] at hasByte
    obtain ⟨line, recorded⟩ := exists_line? hasByte
    have notSame : (chunk.listingAt offset).sameLine = false := by
      rw [← Bool.not_eq_true, sameLine_iff]
      exact not_or.mpr ⟨otherLine, Nat.not_lt.mpr inCode⟩
    exact ⟨line, recorded, Listing.toList_lineText notSame recorded⟩

/-- Listings keep to the legend of the line column at every offset up to the end of the code, and at
no offset beyond, where they show a bar. -/
theorem showsLine_iff_le_size (chunk : Chunk) (offset : Nat) :
    (chunk.ShowsLine offset ↔ offset ≤ chunk.size) ∧
      ((chunk.listingAt offset).lineText = "|" ↔
        chunk.ContinuesLine offset ∨ chunk.size < offset) := by
  refine ⟨⟨?_, showsLine_of_le⟩, lineText_eq_bar_iff⟩
  intro shows
  by_contra beyond
  have noByte : chunk.code[offset]? = none := code_eq_none_iff.mpr (by omega)
  have atEnd := lineText_eq_questionMark_iff.mp (shows.questionMark_iff.mpr noByte)
  omega

/-- A single `Return`. -/
def loneReturn : Chunk where
  code := #[2]
  lines := #[7]

/-- Two places behind the only byte, a bar is shown although there is no line at all. -/
theorem not_showsLine_loneReturn :
    (loneReturn.listingAt 2).lineText = "|" ∧ loneReturn.code[2]? = none ∧
      ¬ loneReturn.ShowsLine 2 := by
  have bar : (loneReturn.listingAt 2).lineText = "|" := rfl
  refine ⟨bar, rfl, ?_⟩
  intro shows
  have continues : loneReturn.ContinuesLine 2 := shows.bar_iff.mp bar
  exact absurd continues (by decide)

end Chunk

end StackMachine
