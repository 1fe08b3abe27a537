/-!
Contract: text tables with a title row.

A table is a list of columns over rows of one type; a column says how a row's cell reads.  Every
column is as wide as its longest text, its title included, so all lines have one length and
every cell can be read back between the bars.

The layout is that of the `prettytable` printer.  Taken from it as given:
- the width of a column, and that a shorter text is filled up with blanks on the side away from its
  alignment;
- the order of the lines: the titles, a rule, the rows, and a closing rule, each of them ended;
- that a rule has one part per column, as long as the padded texts of the column are.

Everything else around the texts is a choice made here: the bars, the borders, the two rules and the
blanks are those of `tableDisplayFormat`.

Owns: alignment, column widths, the format of tables, and the lines of a table.
Does not own: what the columns say.
-/

set_option autoImplicit false

namespace StackMachine

/-- The side of its column on which a text stands. -/
inductive Alignment where
  | left
  | right
deriving DecidableEq, Repr

/-- `text` with blanks up to `width` characters on the side away from the alignment. -/
def Alignment.pad (width : Nat) (text : List Char) : Alignment → List Char
  | .left => text.rightpad width ' '
  | .right => text.leftpad width ' '

theorem Alignment.length_pad (alignment : Alignment) (width : Nat) (text : List Char) :
    (alignment.pad width text).length = max width text.length := by
  cases alignment with
  | left => exact List.length_rightpad
  | right => exact List.length_leftpad

/-- A column over rows of type `Row`. -/
structure Column (Row : Type) where
  title : String
  alignment : Alignment
  cell : Row → String

/-- The length of the longest text of a column, its title included. -/
def Column.width {Row : Type} (column : Column Row) (rows : List Row) : Nat :=
  rows.foldl (fun width row => max width (column.cell row).length) column.title.length

/-- A column together with the width that it takes in a table. -/
structure MeasuredColumn (Row : Type) extends Column Row where
  width : Nat

/-! ## Format -/

/-- The characters of a horizontal rule. -/
structure Rule where
  dash : Char
  /-- Where the rule meets the bar between two columns. -/
  joint : Char
  left : Char
  right : Char
deriving DecidableEq, Repr

/-- What surrounds the texts of a table. -/
structure TableFormat where
  /-- Between two columns. -/
  bar : Char
  /-- At either end of a line of texts. -/
  border : Char
  titleRule : Rule
  bottomRule : Rule
  /-- The number of blanks before each padded text, and the number after it. -/
  leftPadding : Nat
  rightPadding : Nat
deriving DecidableEq, Repr

/-- The format in which every table is shown. -/
def tableDisplayFormat : TableFormat where
  bar := '│'
  border := ' '
  titleRule := { dash := '─', joint := '┼', left := ' ', right := ' ' }
  bottomRule := { dash := '─', joint := '┴', left := ' ', right := ' ' }
  leftPadding := 1
  rightPadding := 1

/-- One part per column, with `joint` between two of them and a character at either end. -/
def Table.line (left joint right : Char) (parts : List (List Char)) : List Char :=
  [left] ++ [joint].intercalate parts ++ [right]

namespace TableFormat

variable {Row : Type} (format : TableFormat)

/-- The number of characters that each line has for a column. -/
def fieldWidth (column : MeasuredColumn Row) : Nat :=
  format.leftPadding + column.width + format.rightPadding

/-- A text of the column, padded to its width, with the blanks of the format on either side. -/
def field (column : MeasuredColumn Row) (text : String) : List Char :=
  List.replicate format.leftPadding ' ' ++ column.alignment.pad column.width text.toList ++
    List.replicate format.rightPadding ' '

/-- A line to which each column contributes one of its texts. -/
def textLine (columns : List (MeasuredColumn Row)) (text : Column Row → String) : List Char :=
  Table.line format.border format.bar format.border
    (columns.map fun column => format.field column (text column.toColumn))

def ruleLine (rule : Rule) (columns : List (MeasuredColumn Row)) : List Char :=
  Table.line rule.left rule.joint rule.right
    (columns.map fun column => List.replicate (format.fieldWidth column) rule.dash)

end TableFormat

/-! ## Tables -/

structure Table (Row : Type) where
  columns : List (Column Row)
  rows : List Row

namespace Table

variable {Row : Type}

def measured (table : Table Row) : List (MeasuredColumn Row) :=
  table.columns.map fun column => { column with width := column.width table.rows }

/-- The title, a rule, the rows in order, and a closing rule. -/
def lines (table : Table Row) (format : TableFormat) : List (List Char) :=
  let columns := table.measured
  [format.textLine columns fun column => column.title, format.ruleLine format.titleRule columns] ++
    (table.rows.map fun row => format.textLine columns fun column => column.cell row) ++
    [format.ruleLine format.bottomRule columns]

@[simp] theorem length_lines (table : Table Row) (format : TableFormat) :
    (table.lines format).length = table.rows.length + 3 := by
  simp [lines]

/-- The text of a table; each of its lines is ended. -/
def text (table : Table Row) : String :=
  .ofList ((table.lines tableDisplayFormat).flatMap fun line => line ++ ['\n'])

end Table

end StackMachine
