import StackMachine.Machine.Trace
import StackMachine.Proofs.Legibility

/-!
Contract: tables are aligned and lose nothing, listing tables and stack tables alike.

The width of a column is that of its longest text, so every text of the column fits and is padded to
the same length.  All lines of a table then have one length, which depends on every cell.  The cells
themselves are read back between the bars whatever that length is.

Owns:
- that no text of a column is longer than the column is wide, and the length of all lines;
- `Presents`, what a text has to be for a reader to find given titles and cells in it;
- the legibility of stack tables, and that both kinds of tables present what they are made of.

Does not own: the texts of listings and values.
-/

set_option autoImplicit false

namespace StackMachine

/-! ## Widths -/

namespace Column

variable {Row : Type} (column : Column Row) (rows : List Row)

theorem foldl_max_le_iff (start bound : Nat) :
    rows.foldl (fun width row => max width (column.cell row).length) start ≤ bound ↔
      start ≤ bound ∧ ∀ row ∈ rows, (column.cell row).length ≤ bound := by
  induction rows generalizing start with
  | nil => simp
  | cons row rows inductionHypothesis =>
      simp only [List.foldl_cons, inductionHypothesis, Nat.max_le, List.forall_mem_cons, and_assoc]

/-- A column is the narrowest one that has room for its title and all its cells. -/
theorem width_le_iff (bound : Nat) :
    column.width rows ≤ bound ↔
      column.title.length ≤ bound ∧ ∀ row ∈ rows, (column.cell row).length ≤ bound :=
  column.foldl_max_le_iff rows column.title.length bound

theorem length_title_le_width : column.title.length ≤ column.width rows :=
  ((column.width_le_iff rows _).mp (Nat.le_refl _)).1

theorem length_cell_le_width {row : Row} (isRow : row ∈ rows) :
    (column.cell row).length ≤ column.width rows :=
  ((column.width_le_iff rows _).mp (Nat.le_refl _)).2 row isRow

end Column

theorem TableFormat.length_field
    {Row : Type}
    (format : TableFormat)
    (column : MeasuredColumn Row)
    {text : String}
    (fits : text.length ≤ column.width) :
    (format.field column text).length = format.fieldWidth column := by
  have padded : (column.alignment.pad column.width text.toList).length = column.width := by
    rw [Alignment.length_pad, String.length_toList]
    exact Nat.max_eq_left fits
  simp only [field, fieldWidth, List.length_append, List.length_replicate, padded]

namespace Table

variable {Row : Type}

/-! ## Lines of one length -/

/-- The length of a line depends on the lengths of its parts alone. -/
theorem length_line_congr
    {columns : List (MeasuredColumn Row)} {part otherPart : MeasuredColumn Row → List Char}
    (left joint right otherLeft otherJoint otherRight : Char)
    (sameLength : ∀ column ∈ columns, (part column).length = (otherPart column).length) :
    (line left joint right (columns.map part)).length =
      (line otherLeft otherJoint otherRight (columns.map otherPart)).length := by
  have sameBetween : ([joint].intercalate (columns.map part)).length =
      ([otherJoint].intercalate (columns.map otherPart)).length := by
    induction columns with
    | nil => rfl
    | cons column rest inductionHypothesis =>
        rw [List.forall_mem_cons] at sameLength
        have restLength := inductionHypothesis sameLength.2
        cases rest with
        | nil => simpa using sameLength.1
        | cons next others =>
            simp only [List.map_cons] at restLength ⊢
            simp only [List.intercalate_cons_cons, List.length_append, List.length_cons,
              List.length_nil, sameLength.1, restLength]
  simp only [line, List.length_append, sameBetween, List.length_cons, List.length_nil]

/-- Texts that fit take as many characters as the dashes of a rule do. -/
theorem length_textLine
    {table : Table Row} {text : Column Row → String}
    (format : TableFormat)
    (rule : Rule)
    (fits : ∀ column : Column Row, (text column).length ≤ column.width table.rows) :
    (format.textLine table.measured text).length =
      (format.ruleLine rule table.measured).length := by
  apply length_line_congr
  intro column member
  obtain ⟨original, _, rfl⟩ := List.mem_map.mp member
  rw [format.length_field _ (fits original), List.length_replicate]

/-- Every field is as wide as its column, so every line is as long as a rule. -/
theorem length_of_mem_lines
    {table : Table Row} {format : TableFormat} {line : List Char}
    (isLine : line ∈ table.lines format) :
    line.length = (format.ruleLine format.titleRule table.measured).length := by
  simp only [lines, List.mem_append, List.mem_cons, List.not_mem_nil, or_false,
    List.mem_map] at isLine
  rcases isLine with ((rfl | rfl) | ⟨row, isRow, rfl⟩) | rfl
  · apply length_textLine
    intro column
    exact column.length_title_le_width table.rows
  · rfl
  · apply length_textLine
    intro column
    exact column.length_cell_le_width table.rows isRow
  · apply length_line_congr
    intro column _
    rw [List.length_replicate, List.length_replicate]

/-! ## What a reader finds -/

/-- A reader finds the titles and the cells in the text.  It consists of ended lines of one length.
The titles stand in the first line and the cells of each row in one line of their own; two more lines
are left for the rules. -/
structure Presents (text : String) (titles : List String) (cells : List (List String)) : Prop where
  ended : text.toList.splitOn '\n' = readLines text.toList ++ [[]]
  lineCount : (readLines text.toList).length = cells.length + 3
  aligned : ∃ length, ∀ line ∈ readLines text.toList, line.length = length
  titleCells : (readLines text.toList).head?.map readCells = some (titles.map String.toList)
  rowCells : readRows text.toList = cells.map fun row => row.map String.toList

namespace AllLegible

variable {table : Table Row} (legible : table.AllLegible)
include legible

theorem presents :
    Presents table.text (table.columns.map Column.title)
      (table.rows.map fun row => table.columns.map fun column => column.cell row) where
  ended := by
    rw [legible.readLines_text, text, String.toList_ofList,
      splitOn_flatMap_lineEnd legible.noLineEnd]
  lineCount := by
    rw [legible.readLines_text, length_lines, List.length_map]
  aligned := by
    rw [legible.readLines_text]
    exact ⟨_, fun _ isLine => length_of_mem_lines isLine⟩
  titleCells := by
    rw [legible.readLines_text, List.map_map]
    exact congrArg some (legible.readCells_measured legible.titles)
  rowCells := by
    rw [legible.readRows_text, List.map_map]
    simp only [Function.comp_def, List.map_map]

end AllLegible

end Table

/-! ## Stack tables -/

namespace Machine

/-- A label is the number of the slot, with an arrow in front at the top. -/
theorem Slot.label_eq (slot : Slot) :
    slot.label = (if slot.isTop then "* --> " else "") ++ s!"[{slot.index}] =" := by
  unfold label
  split
  · show "* --> [" ++ toString slot.index ++ "] =" =
      "* --> " ++ ("[" ++ toString slot.index ++ "] =")
    rw [← String.append_assoc, ← String.append_assoc]
    rfl
  · exact (String.empty_append ..).symm

theorem toList_slotNumber (index : Nat) :
    (s!"[{index}] =").toList = ('[' :: Nat.toDigits 10 index ++ [']']) ++ ' ' :: ['='] := by
  show ("[" ++ toString index ++ "] =").toList = _
  simp

theorem legible_slotNumber (index : Nat) : Legible (s!"[{index}] =").toList := by
  have inked : Inked ('[' :: Nat.toDigits 10 index ++ [']']) := by
    rw [inked_append_iff, inked_cons_iff]
    exact ⟨⟨by decide, (allDigits_toDigits index).inked⟩, by decide⟩
  rw [toList_slotNumber]
  apply inked.legible.append_blank_append
  · exact Inked.legible (by decide)
  · simp
  · simp

theorem Slot.legible_label (slot : Slot) : Legible slot.label.toList := by
  have number := legible_slotNumber slot.index
  rw [slot.label_eq, String.toList_append]
  split
  · have arrow : Legible "* -->".toList := ⟨by decide, by decide, by decide, by decide⟩
    apply arrow.append_blank_append number (by decide)
    rw [toList_slotNumber]
    simp
  · exact number

theorem allLegible_stackTable (machine : Machine) : machine.stackTable.AllLegible where
  someColumns := List.cons_ne_nil _ _
  titles := by
    intro column member
    simp only [stackTable, Slot.columns, List.mem_cons, List.not_mem_nil, or_false] at member
    apply Inked.legible
    rcases member with rfl | rfl <;> decide
  cells := by
    intro column member slot _
    simp only [stackTable, Slot.columns, List.mem_cons, List.not_mem_nil, or_false] at member
    rcases member with rfl | rfl
    · exact slot.legible_label
    · exact slot.value.inked_text.legible

/-- The text of a machine is one line, and then the table of its stack. -/
theorem exists_text_eq (machine : Machine) :
    ∃ heading : String,
      machine.text = heading ++ "\n" ++ machine.stackTable.text ∧ '\n' ∉ heading.toList := by
  let cursor := String.ofList (Decimal.zeroPadded Listing.offsetWidth machine.cursor)
  refine ⟨"IP: " ++ cursor ++ "\tStack depth: " ++ toString machine.stack.length, ?_, ?_⟩
  · show "IP: " ++ cursor ++ "\tStack depth: " ++ toString machine.stack.length ++ "\n" ++
      machine.stackTable.text = _
    rfl
  · simp only [String.toList_append, toList_toString_nat, cursor, String.toList_ofList,
      List.mem_append, not_or]
    exact ⟨⟨⟨by decide, (Decimal.allDigits_zeroPadded _ _).not_mem (by decide)⟩, by decide⟩,
      (allDigits_toDigits _).not_mem (by decide)⟩

/-- The cells of a stack table, the bottom slot first. -/
theorem cells_slots (machine : Machine) :
    (machine.slots.map fun slot => Slot.columns.map fun column => column.cell slot) =
      machine.stack.reverse.mapIdx fun index value =>
        [(if index + 1 = machine.stack.length then "* --> " else "") ++ s!"[{index}] =",
          value.text] := by
  rw [slots, List.map_map, List.mapIdx_eq_zipIdx_map]
  apply List.map_congr_left
  intro entry _
  show [Slot.label _, _] = _
  rw [Slot.label_eq]
  simp

theorem arrow_isPrefix_iff (isTop : Prop) [Decidable isTop] (index : Nat) :
    "* -->".toList <+: ((if isTop then "* --> " else "") ++ s!"[{index}] =").toList ↔ isTop := by
  rw [String.toList_append, toList_slotNumber]
  split
  · rename_i top
    exact iff_of_true ((by decide : "* -->".toList <+: "* --> ".toList).trans
      (List.prefix_append ..)) top
  · rename_i notTop
    refine iff_of_false ?_ notTop
    simp

theorem presents_stackTable (machine : Machine) :
    Table.Presents machine.stackTable.text ["Slot", "Value"]
      (machine.stack.reverse.mapIdx fun index value =>
        [(if index + 1 = machine.stack.length then "* --> " else "") ++ s!"[{index}] =",
          value.text]) := by
  rw [← cells_slots]
  exact machine.allLegible_stackTable.presents

/-- The row of the top slot shows an arrow, and no other row does. -/
theorem arrow_iff_top
    {machine : Machine} {index : Nat} {row : List (List Char)}
    (read : (Table.readRows machine.stackTable.text.toList)[index]? = some row) :
    "* -->".toList <+: row.headD [] ↔ index + 1 = machine.stack.length := by
  rw [machine.presents_stackTable.rowCells, List.getElem?_map, List.getElem?_mapIdx] at read
  simp only [Option.map_map, Option.map_eq_some_iff] at read
  obtain ⟨value, _, rfl⟩ := read
  exact arrow_isPrefix_iff _ index

end Machine

/-- Listing tables and stack tables can be read back, whatever they show.  All their lines have one
length.  The rows of a listing table hold the four texts of each listing in turn; those of a stack
table hold the number and the text of each value from the bottom up, and an arrow at the top alone.
The stack table is all of the text of a machine but the first line. -/
theorem tables_read_back (disassembly : Disassembly) (machine : Machine) :
    Table.Presents disassembly.table.text ["Offset", "Line", "Instruction", "Constant"]
      (disassembly.listings.map fun listing =>
        [.ofList (Decimal.zeroPadded 4 listing.offset), listing.lineText, listing.instructionText,
          listing.constantText]) ∧
    (∃ heading : String,
      machine.text = heading ++ "\n" ++ machine.stackTable.text ∧ '\n' ∉ heading.toList) ∧
    Table.Presents machine.stackTable.text ["Slot", "Value"]
      (machine.stack.reverse.mapIdx fun index value =>
        [(if index + 1 = machine.stack.length then "* --> " else "") ++ s!"[{index}] =",
          value.text]) ∧
    ∀ index row,
      (Table.readRows machine.stackTable.text.toList)[index]? = some row →
        ("* -->".toList <+: row.headD [] ↔ index + 1 = machine.stack.length) := by
  refine ⟨disassembly.allLegible_table.presents, machine.exists_text_eq,
    machine.presents_stackTable, ?_⟩
  intro index row read
  exact Machine.arrow_iff_top read

/-- Listings as no chunk has them: a bar without a line, and a constant where there is no load. -/
def oddListings : Disassembly where
  name := "odd"
  listings :=
    [ { offset := 123456
        line := none
        sameLine := true
        decoded := .error (.unknownOpcode 7 200)
        constant := some .nil },
      { offset := 7
        line := some 12
        sameLine := false
        decoded := .ok (.constant 3)
        constant := none } ]

/-- One and a half under a truth value. -/
def twoValues : Machine where
  stack := [.bool true, .number (.ofBits 0x3ff8000000000000)]

theorem oddListings_and_twoValues_read_back :
    Table.readRows oddListings.table.text.toList =
        [ ["123456".toList, "|".toList, "Unknown opcode 200".toList, []],
          ["0007".toList, "12".toList, "Constant(3)".toList, "<out of range>".toList] ] ∧
      (Table.readRows twoValues.stackTable.text.toList)[0]? =
        some ["[0] =".toList, "1.5".toList] ∧
      ¬ "* -->".toList <+: "[0] =".toList ∧
      (Table.readRows twoValues.stackTable.text.toList)[1]? =
        some ["* --> [1] =".toList, "true".toList] ∧
      "* -->".toList <+: "* --> [1] =".toList := by
  obtain ⟨listed, _, stacked, arrow_iff⟩ := tables_read_back oddListings twoValues
  have bottom : (Table.readRows twoValues.stackTable.text.toList)[0]? =
      some ["[0] =".toList, "1.5".toList] := by
    rw [stacked.rowCells]
    decide +kernel
  have top : (Table.readRows twoValues.stackTable.text.toList)[1]? =
      some ["* --> [1] =".toList, "true".toList] := by
    rw [stacked.rowCells]
    decide +kernel
  refine ⟨?_, bottom, ?_, top, (arrow_iff 1 _ top).mpr rfl⟩
  · rw [listed.rowCells]
    decide +kernel
  · exact mt (arrow_iff 0 _ bottom).mp (by decide)

end StackMachine
