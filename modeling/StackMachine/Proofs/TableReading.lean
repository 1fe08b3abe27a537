import StackMachine.Table

/-!
Contract: reading a table back from its text.

The text of a table is cut at its line ends, a line at its bars, and a field loses the blanks at its
two ends.  This gives back every cell as long as no cell holds a bar or a line end, or has a blank at
one of its own ends: neither the width of a column nor its padding leaves a trace in what is read.
Of `tableDisplayFormat` the reader relies on the bar and on borders that are blanks.

Owns: the reader, `Legible`, the texts that it reads back, and that it does so for whole tables.
Does not own: which texts the cells of a particular table hold.
-/

set_option autoImplicit false

namespace StackMachine

/-! ## Texts -/

/-- A text that can be told apart from what surrounds it in a table. -/
structure Legible (text : List Char) : Prop where
  noBar : '│' ∉ text
  noLineEnd : '\n' ∉ text
  firstNotBlank : text.head? ≠ some ' '
  lastNotBlank : text.getLast? ≠ some ' '

/-- A text without the blanks at its two ends. -/
def trimmed (text : List Char) : List Char :=
  ((text.dropWhile (· == ' ')).reverse.dropWhile (· == ' ')).reverse

theorem trimmed_cons_blank (text : List Char) : trimmed (' ' :: text) = trimmed text := by
  rw [trimmed, List.dropWhile_cons_of_pos rfl]
  rfl

theorem trimmed_append_blank (text : List Char) : trimmed (text ++ [' ']) = trimmed text := by
  rw [trimmed, trimmed, List.dropWhile_append]
  split
  · rename_i allBlank
    rw [List.isEmpty_iff.mp allBlank]
    rfl
  · rw [List.reverse_append, List.reverse_singleton, List.singleton_append,
      List.dropWhile_cons_of_pos rfl]

theorem trimmed_blanks_append (count : Nat) (text : List Char) :
    trimmed (List.replicate count ' ' ++ text) = trimmed text := by
  induction count with
  | zero => rfl
  | succ count inductionHypothesis =>
      rw [List.replicate_succ, List.cons_append, trimmed_cons_blank, inductionHypothesis]

theorem trimmed_append_blanks (text : List Char) (count : Nat) :
    trimmed (text ++ List.replicate count ' ') = trimmed text := by
  induction count with
  | zero => rw [List.replicate_zero, List.append_nil]
  | succ count inductionHypothesis =>
      rw [List.replicate_succ', ← List.append_assoc, trimmed_append_blank, inductionHypothesis]

theorem Legible.trimmed_eq {text : List Char} (legible : Legible text) : trimmed text = text := by
  have lastNotBlank : text.reverse.head? ≠ some ' ' := by
    rw [List.head?_reverse]
    exact legible.lastNotBlank
  rw [trimmed, List.dropWhile_beq_eq_self_of_head?_ne legible.firstNotBlank,
    List.dropWhile_beq_eq_self_of_head?_ne lastNotBlank, List.reverse_reverse]

/-! ## Fields -/

namespace TableFormat

variable {Row : Type} (format : TableFormat) (column : MeasuredColumn Row)

theorem field_eq (text : String) :
    ∃ before after,
      format.field column text =
        List.replicate before ' ' ++ text.toList ++ List.replicate after ' ' := by
  unfold field
  cases column.alignment with
  | left =>
      refine ⟨format.leftPadding, column.width - text.toList.length + format.rightPadding, ?_⟩
      rw [Alignment.pad, List.rightpad, ← List.replicate_append_replicate]
      simp only [List.append_assoc]
  | right =>
      refine ⟨format.leftPadding + (column.width - text.toList.length), format.rightPadding, ?_⟩
      rw [Alignment.pad, List.leftpad, ← List.replicate_append_replicate]
      simp only [List.append_assoc]

theorem mem_field {text : String} {char : Char} (member : char ∈ format.field column text) :
    char = ' ' ∨ char ∈ text.toList := by
  obtain ⟨before, after, shape⟩ := format.field_eq column text
  simp only [shape, List.mem_append, List.mem_replicate] at member
  rcases member with (⟨_, isBlank⟩ | inText) | ⟨_, isBlank⟩
  · exact .inl isBlank
  · exact .inr inText
  · exact .inl isBlank

/-- A character that no text holds is in no field, unless it is the blank. -/
theorem not_mem_fields
    {columns : List (MeasuredColumn Row)} {text : Column Row → String} {char : Char}
    (notBlank : char ≠ ' ')
    (notInTexts : ∀ column ∈ columns, char ∉ (text column.toColumn).toList) :
    ∀ part ∈ columns.map fun column => format.field column (text column.toColumn), char ∉ part := by
  intro part isField inField
  obtain ⟨column, member, rfl⟩ := List.mem_map.mp isField
  rcases format.mem_field column inField with isBlank | inText
  · exact notBlank isBlank
  · exact notInTexts column member inText

theorem trimmed_field {text : String} (legible : Legible text.toList) :
    trimmed (format.field column text) = text.toList := by
  obtain ⟨before, after, shape⟩ := format.field_eq column text
  rw [shape, trimmed_append_blanks, trimmed_blanks_append, legible.trimmed_eq]

end TableFormat

namespace Table

variable {Row : Type}

/-! ## Lines -/

/-- The cells of one line. -/
def readCells (line : List Char) : List (List Char) :=
  (line.splitOn '│').map trimmed

theorem readCells_blank_cons (line : List Char) : readCells (' ' :: line) = readCells line := by
  rw [readCells, List.splitOn_cons_eq_if_modifyHead, if_neg (by decide), readCells]
  cases line.splitOn '│' with
  | nil => rfl
  | cons first rest => rw [List.modifyHead_cons, List.map_cons, trimmed_cons_blank, List.map_cons]

theorem readCells_append_blank
    {parts : List (List Char)}
    (someParts : parts ≠ [])
    (noBar : ∀ part ∈ parts, '│' ∉ part) :
    readCells (['│'].intercalate parts ++ [' ']) = parts.map trimmed := by
  unfold readCells
  induction parts with
  | nil => contradiction
  | cons part rest inductionHypothesis =>
      have partNoBar := noBar part (List.mem_cons_self ..)
      cases rest with
      | nil =>
          have endNoBar : '│' ∉ part ++ [' '] := by simpa using partNoBar
          rw [List.intercalate_singleton, List.splitOn_eq_singleton endNoBar, List.map_singleton,
            trimmed_append_blank, List.map_singleton]
      | cons next others =>
          have restNoBar : ∀ other ∈ next :: others, '│' ∉ other := by
            intro other member
            exact noBar other (List.mem_cons_of_mem _ member)
          rw [List.intercalate_cons_cons, List.append_assoc, List.append_assoc,
            List.singleton_append, List.splitOn_append_cons_self_of_not_mem partNoBar,
            List.map_cons, inductionHypothesis (List.cons_ne_nil _ _) restNoBar]
          rfl

theorem readCells_line
    {parts : List (List Char)}
    (someParts : parts ≠ [])
    (noBar : ∀ part ∈ parts, '│' ∉ part) :
    readCells (line ' ' '│' ' ' parts) = parts.map trimmed := by
  rw [line, List.append_assoc, List.singleton_append, readCells_blank_cons,
    readCells_append_blank someParts noBar]

theorem not_mem_line
    {char left joint right : Char} {parts : List (List Char)}
    (notLeft : char ≠ left)
    (notJoint : char ≠ joint)
    (notRight : char ≠ right)
    (notInParts : ∀ part ∈ parts, char ∉ part) :
    char ∉ line left joint right parts := by
  have notBetween : char ∉ [joint].intercalate parts := by
    induction parts with
    | nil => exact List.not_mem_nil
    | cons part rest inductionHypothesis =>
        have notInRest : ∀ other ∈ rest, char ∉ other := by
          intro other member
          exact notInParts other (List.mem_cons_of_mem _ member)
        have notInPart := notInParts part (List.mem_cons_self ..)
        cases rest with
        | nil => rwa [List.intercalate_singleton]
        | cons next others =>
            simp [notInPart, notJoint, inductionHypothesis notInRest]
  simp [line, notLeft, notRight, notBetween]

section TextLine

variable {columns : List (MeasuredColumn Row)} {text : Column Row → String}

theorem noLineEnd_textLine (legible : ∀ column ∈ columns, Legible (text column.toColumn).toList) :
    '\n' ∉ tableDisplayFormat.textLine columns text := by
  apply not_mem_line (by decide) (by decide) (by decide)
  apply tableDisplayFormat.not_mem_fields (by decide)
  intro column member
  exact (legible column member).noLineEnd

theorem readCells_textLine
    (someColumns : columns ≠ [])
    (legible : ∀ column ∈ columns, Legible (text column.toColumn).toList) :
    readCells (tableDisplayFormat.textLine columns text) =
      columns.map fun column => (text column.toColumn).toList := by
  have someFields : (columns.map fun column =>
      tableDisplayFormat.field column (text column.toColumn)) ≠ [] := by
    simpa using someColumns
  have noBar : ∀ column ∈ columns, '│' ∉ (text column.toColumn).toList := by
    intro column member
    exact (legible column member).noBar
  have cut := readCells_line someFields (tableDisplayFormat.not_mem_fields (by decide) noBar)
  rw [List.map_map] at cut
  apply cut.trans
  apply List.map_congr_left
  intro column member
  exact tableDisplayFormat.trimmed_field column (legible column member)

end TextLine

theorem noLineEnd_ruleLine
    (format : TableFormat)
    {rule : Rule}
    (columns : List (MeasuredColumn Row))
    (others : '\n' ∉ [rule.dash, rule.left, rule.joint, rule.right]) :
    '\n' ∉ format.ruleLine rule columns := by
  simp only [List.mem_cons, List.not_mem_nil, or_false, not_or] at others
  obtain ⟨notDash, notLeft, notJoint, notRight⟩ := others
  apply not_mem_line notLeft notJoint notRight
  intro part isDashes inDashes
  obtain ⟨column, _, rfl⟩ := List.mem_map.mp isDashes
  exact notDash (List.eq_of_mem_replicate inDashes)

/-! ## Whole tables -/

/-- The lines of a text all of whose lines are ended. -/
def readLines (text : List Char) : List (List Char) :=
  (text.splitOn '\n').dropLast

/-- The cells of all rows.  Two lines stand above the rows and one below them. -/
def readRows (text : List Char) : List (List (List Char)) :=
  ((readLines text).drop 2).dropLast.map readCells

theorem splitOn_flatMap_lineEnd
    {lines : List (List Char)}
    (noLineEnd : ∀ line ∈ lines, '\n' ∉ line) :
    (lines.flatMap fun line => line ++ ['\n']).splitOn '\n' = lines ++ [[]] := by
  induction lines with
  | nil => rfl
  | cons line lines inductionHypothesis =>
      rw [List.flatMap_cons, List.append_assoc, List.singleton_append,
        List.splitOn_append_cons_self_of_not_mem (noLineEnd line (List.mem_cons_self ..)),
        inductionHypothesis, List.cons_append]
      intro other member
      exact noLineEnd other (List.mem_cons_of_mem _ member)

theorem toColumn_mem
    {table : Table Row} {column : MeasuredColumn Row}
    (member : column ∈ table.measured) :
    column.toColumn ∈ table.columns := by
  obtain ⟨original, isColumn, rfl⟩ := List.mem_map.mp member
  exact isColumn

/-- All titles and cells are legible, and there is a column at all. -/
structure AllLegible (table : Table Row) : Prop where
  someColumns : table.columns ≠ []
  titles : ∀ column ∈ table.columns, Legible column.title.toList
  cells : ∀ column ∈ table.columns, ∀ row ∈ table.rows, Legible (column.cell row).toList

namespace AllLegible

variable {table : Table Row} (legible : table.AllLegible)
include legible

theorem noLineEnd : ∀ line ∈ table.lines tableDisplayFormat, '\n' ∉ line := by
  intro line isLine
  simp only [lines, List.mem_append, List.mem_cons, List.not_mem_nil, or_false,
    List.mem_map] at isLine
  rcases isLine with ((rfl | rfl) | ⟨row, isRow, rfl⟩) | rfl
  · apply noLineEnd_textLine
    intro column member
    exact legible.titles column.toColumn (toColumn_mem member)
  · exact noLineEnd_ruleLine _ table.measured (by decide)
  · apply noLineEnd_textLine
    intro column member
    exact legible.cells column.toColumn (toColumn_mem member) row isRow
  · exact noLineEnd_ruleLine _ table.measured (by decide)

theorem readLines_text : readLines table.text.toList = table.lines tableDisplayFormat := by
  rw [readLines, text, String.toList_ofList, splitOn_flatMap_lineEnd legible.noLineEnd,
    List.dropLast_concat]

/-- A line that holds one text of every column is read back as these texts. -/
theorem readCells_measured
    {text : Column Row → String}
    (textLegible : ∀ column ∈ table.columns, Legible (text column).toList) :
    readCells (tableDisplayFormat.textLine table.measured text) =
      table.columns.map fun column => (text column).toList := by
  have someMeasured : table.measured ≠ [] := by
    simpa [measured] using legible.someColumns
  rw [readCells_textLine someMeasured, measured, List.map_map]
  · rfl
  · intro column member
    exact textLegible column.toColumn (toColumn_mem member)

/-- The cells of a table are read back from its text. -/
theorem readRows_text :
    readRows table.text.toList =
      table.rows.map fun row => table.columns.map fun column => (column.cell row).toList := by
  have rowLines : ((table.lines tableDisplayFormat).drop 2).dropLast = table.rows.map fun row =>
      tableDisplayFormat.textLine table.measured fun column => column.cell row :=
    List.dropLast_concat
  rw [readRows, legible.readLines_text, rowLines, List.map_map]
  apply List.map_congr_left
  intro row isRow
  apply legible.readCells_measured
  intro column member
  exact legible.cells column member row isRow

end AllLegible

end Table

end StackMachine
