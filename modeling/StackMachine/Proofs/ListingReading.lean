import StackMachine.Proofs.Emission
import StackMachine.Proofs.Legibility

/-!
Contract: a chunk's code and lines are read back from the table of its listings.

A row names its instruction, or the byte that is none, so the rows together give all bytes.  A row
also shows a line, where a bar stands for the line of the row above.  The lines of all bytes follow
as long as no instruction is spread over two of them.

Owns:
- the reading of an instruction text, of a column of lines and of a whole table;
- `LoadsOnOneLine`, the condition on lines, and when a row shows a bar;
- that reading gives back the code and the lines that were listed, so that chunks with the same text
  are the same up to their pools.

Does not own: the constants, whose texts may be rounded.
-/

set_option autoImplicit false

namespace StackMachine

/-! ## Reading rows -/

/-- The decimal digits in a text. -/
def digitsOf (text : List Char) : List Char :=
  text.filter Char.isDigit

/-- The number that the digits of a text write. -/
def readNumber (text : List Char) : Nat :=
  Nat.ofDigitChars 10 (digitsOf text) 0

/-- The bytes that an instruction text stands for.  Its initial tells the operation, or that there is
none. -/
def readBytes (text : List Char) : List UInt8 :=
  match text.head? with
  | some 'C' =>
      if digitsOf text = [] then
        [Operation.constant.code]
      else
        [Operation.constant.code, .ofNat (readNumber text)]
  | some 'N' => [Operation.negate.code]
  | some 'R' => [Operation.ret.code]
  | some 'U' => [.ofNat (readNumber text)]
  | _ => []

/-- The lines of all bytes that rows stand for, where a row is given by its line and its instruction.
A bar stands for the line of the row above; `above` is that of the first row. -/
def readByteLines (above : Nat) : List (List Char × List Char) → List Nat
  | [] => []
  | (lineText, instructionText) :: rows =>
      let line := if lineText = ['|'] then above else readNumber lineText
      List.replicate (readBytes instructionText).length line ++ readByteLines line rows

theorem digitsOf_append (left right : List Char) :
    digitsOf (left ++ right) = digitsOf left ++ digitsOf right :=
  List.filter_append ..

theorem digitsOf_toDigits (number : Nat) :
    digitsOf (Nat.toDigits 10 number) = Nat.toDigits 10 number := by
  apply List.filter_eq_self.mpr
  intro char member
  exact Nat.isDigit_of_mem_toDigits (by decide) (by decide) member

theorem readNumber_of_digitsOf
    {text : List Char} {number : Nat}
    (digits : digitsOf text = Nat.toDigits 10 number) :
    readNumber text = number := by
  rw [readNumber, digits, Nat.ofDigitChars_ten_toDigits]

theorem readBytes_constant (index : UInt8) :
    readBytes (Instruction.constant index).text.toList = [Operation.constant.code, index] := by
  have digits : digitsOf (Instruction.constant index).text.toList =
      Nat.toDigits 10 index.toNat := by
    rw [toList_text_constant, digitsOf_append, digitsOf_append, digitsOf_toDigits]
    exact List.append_nil _
  have initial : (Instruction.constant index).text.toList.head? = some 'C' := by
    rw [toList_text_constant]
    rfl
  have someDigit : ¬ Nat.toDigits 10 index.toNat = [] := Nat.toDigits_ne_nil
  simp only [readBytes, initial, digits, someDigit, if_false, readNumber_of_digitsOf digits,
    UInt8.ofNat_toNat]

theorem readBytes_unknownOpcode (byte : UInt8) :
    readBytes (s!"Unknown opcode {byte}").toList = [byte] := by
  have digits : digitsOf (s!"Unknown opcode {byte}").toList = Nat.toDigits 10 byte.toNat := by
    rw [toList_text_unknownOpcode, List.append_cons, digitsOf_append, digitsOf_toDigits]
    rfl
  have initial : (s!"Unknown opcode {byte}").toList.head? = some 'U' := by
    rw [toList_text_unknownOpcode]
    rfl
  simp only [readBytes, initial, readNumber_of_digitsOf digits, UInt8.ofNat_toNat]

theorem readBytes_missingOperand (operation : Operation) :
    readBytes (s!"{operation.name}(<missing>)").toList = [operation.code] := by
  cases operation <;> decide

theorem readBytes_endOfCode : readBytes "<end of code>".toList = [] := by
  decide

/-- The text of an instruction stands for the bytes of its listing. -/
theorem Listing.readBytes_instructionText (listing : Listing) :
    readBytes listing.instructionText.toList = listing.bytes := by
  unfold instructionText bytes
  cases listing.decoded with
  | ok instruction =>
      cases instruction with
      | constant index => exact readBytes_constant index
      | negate => rfl
      | ret => rfl
  | error error =>
      cases error with
      | endOfCode offset => exact readBytes_endOfCode
      | unknownOpcode offset byte => exact readBytes_unknownOpcode byte
      | missingOperand offset operation => exact readBytes_missingOperand operation

/-! ## Reading lines -/

/-- A number is not written as one character that is no digit. -/
theorem toDigits_ne_singleton
    {char : Char}
    (notDigit : ¬ char.isDigit = true)
    (number : Nat) :
    Nat.toDigits 10 number ≠ [char] := by
  intro isChar
  have member : char ∈ Nat.toDigits 10 number := by
    rw [isChar]
    exact List.mem_singleton_self _
  exact notDigit (Nat.isDigit_of_mem_toDigits (by decide) (by decide) member)

theorem toDigits_ne_bar (number : Nat) : Nat.toDigits 10 number ≠ ['|'] :=
  toDigits_ne_singleton (by decide) number

namespace Listing

variable {listing : Listing}

theorem lineText_of_sameLine (sameLine : listing.sameLine = true) : listing.lineText = "|" := by
  simp only [lineText, sameLine]

theorem toList_lineText
    {line : Nat}
    (otherLine : listing.sameLine = false)
    (recorded : listing.line = some line) :
    listing.lineText.toList = Nat.toDigits 10 line := by
  simp only [lineText, otherLine, recorded, toList_toString_nat]

/-- What a row of the table shows of the line and the instruction. -/
def rowTexts (listing : Listing) : List Char × List Char :=
  (listing.lineText.toList, listing.instructionText.toList)

/-- A bar says that the byte before has the same line. -/
theorem lineText_eq_bar_iff : listing.lineText = "|" ↔ listing.sameLine = true := by
  constructor
  · intro isBar
    cases sameLine : listing.sameLine with
    | true => rfl
    | false =>
        exfalso
        cases recorded : listing.line with
        | none =>
            simp only [lineText, sameLine, recorded] at isBar
            exact absurd isBar (by decide)
        | some line =>
            apply toDigits_ne_bar line
            rw [← toList_lineText sameLine recorded, isBar]
            rfl
  · exact lineText_of_sameLine

end Listing

namespace Chunk

variable {chunk : Chunk} {offset line : Nat}

theorem exists_line? (inside : offset < chunk.size) : ∃ line, chunk.line? offset = some line := by
  apply Option.ne_none_iff_exists'.mp
  rw [Ne, chunk.line?_eq_none_iff]
  omega

theorem lt_size_of_line? (here : chunk.line? offset = some line) : offset < chunk.size := by
  rw [← Nat.not_le, ← chunk.line?_eq_none_iff, here]
  exact Option.some_ne_none line

theorem sameLine_listingAt_iff :
    (chunk.listingAt offset).sameLine = true ↔
      0 < offset ∧ chunk.line? offset = chunk.line? (offset - 1) := by
  simp [listingAt]

/-- The line that is read for a row is that of its listing, provided that the row above is on the
line of the byte before. -/
theorem readLine_lineText
    {above : Nat}
    (here : chunk.line? offset = some line)
    (before : 0 < offset → chunk.line? (offset - 1) = some above) :
    (if (chunk.listingAt offset).lineText.toList = ['|'] then above
      else readNumber (chunk.listingAt offset).lineText.toList) = line := by
  cases sameLine : (chunk.listingAt offset).sameLine with
  | true =>
      obtain ⟨notFirst, sameEntry⟩ := sameLine_listingAt_iff.mp sameLine
      rw [Listing.lineText_of_sameLine sameLine, if_pos (by decide)]
      apply Option.some.inj
      rw [← before notFirst, ← sameEntry, here]
  | false =>
      rw [Listing.toList_lineText sameLine here, if_neg (toDigits_ne_bar line)]
      exact readNumber_of_digitsOf (digitsOf_toDigits line)

theorem lines_drop_eq (here : chunk.line? offset = some line) :
    chunk.lines.toList.drop offset = line :: chunk.lines.toList.drop (offset + 1) :=
  drop_of_getElem? here

/-- Every listing inside the code that is no load stands for one byte. -/
theorem length_bytes_eq_one
    (inside : offset < chunk.size)
    (noLoad : ∀ index, (chunk.listingAt offset).decoded ≠ .ok (.constant index)) :
    (chunk.listingAt offset).bytes.length = 1 := by
  unfold Listing.bytes
  cases decoded : (chunk.listingAt offset).decoded with
  | ok instruction =>
      cases instruction with
      | constant index => exact absurd decoded (noLoad index)
      | negate => rfl
      | ret => rfl
  | error error =>
      cases error with
      | endOfCode named => exact absurd decoded (chunk.decoded_ne_endOfCode inside named)
      | unknownOpcode _ _ => rfl
      | missingOperand _ _ => rfl

/-- If the listing is a load, its two bytes are on one line. -/
def OnOneLine (chunk : Chunk) (listing : Listing) : Prop :=
  ∀ index, listing.decoded = .ok (.constant index) →
    chunk.line? (listing.offset + 1) = chunk.line? listing.offset

/-- Both bytes of every load that the disassembly lists are on one line. -/
def LoadsOnOneLine (chunk : Chunk) : Prop :=
  ∀ listing ∈ chunk.listingsFrom 0, chunk.OnOneLine listing

/-- The bytes of a listing are all on its line, unless they are a load that is spread over two. -/
theorem drop_lines_eq_replicate_append
    (here : chunk.line? offset = some line)
    (onOneLine : chunk.OnOneLine (chunk.listingAt offset)) :
    chunk.lines.toList.drop offset =
      List.replicate (chunk.listingAt offset).bytes.length line ++
        chunk.lines.toList.drop (chunk.nextOffset offset) := by
  have inside := lt_size_of_line? here
  rw [chunk.nextOffset_eq_add_length inside]
  by_cases isLoad : ∃ index, (chunk.listingAt offset).decoded = .ok (.constant index)
  · obtain ⟨index, decoded⟩ := isLoad
    have operand : chunk.line? (offset + 1) = some line := (onOneLine index decoded).trans here
    have twoBytes : (chunk.listingAt offset).bytes.length = 2 := by
      rw [Listing.bytes, decoded]
      rfl
    rw [twoBytes, lines_drop_eq here, lines_drop_eq operand]
    rfl
  · have oneByte := length_bytes_eq_one inside (not_exists.mp isLoad)
    rw [oneByte, lines_drop_eq here]
    rfl

/-- The last byte of a listing is on its line too. -/
theorem line?_before_nextOffset
    (here : chunk.line? offset = some line)
    (onOneLine : chunk.OnOneLine (chunk.listingAt offset)) :
    chunk.line? (chunk.nextOffset offset - 1) = some line := by
  have inside := lt_size_of_line? here
  have next := chunk.nextOffset_eq_add_length inside
  have further := chunk.lt_nextOffset inside
  have lastByte : chunk.nextOffset offset - 1 =
      offset + ((chunk.listingAt offset).bytes.length - 1) := by
    omega
  have inListing : (chunk.listingAt offset).bytes.length - 1 <
      (chunk.listingAt offset).bytes.length := by
    omega
  rw [lastByte]
  exact line?_of_drop_eq (drop_lines_eq_replicate_append here onOneLine) inListing

/-- The lines of all bytes are read off the rows from any listing on. -/
theorem readByteLines_listingsFrom
    (chunk : Chunk) (offset above : Nat)
    (onOneLine : ∀ listing ∈ chunk.listingsFrom offset, chunk.OnOneLine listing)
    (before : 0 < offset → chunk.line? (offset - 1) = some above) :
    readByteLines above ((chunk.listingsFrom offset).map Listing.rowTexts) =
      chunk.lines.toList.drop offset := by
  fun_induction listingsFrom chunk offset generalizing above with
  | case1 offset inside inductionHypothesis =>
      obtain ⟨line, here⟩ := exists_line? inside
      have firstOnOneLine := onOneLine (chunk.listingAt offset) (List.mem_cons_self ..)
      rw [drop_lines_eq_replicate_append here firstOnOneLine, List.map_cons, Listing.rowTexts,
        readByteLines, readLine_lineText here before, Listing.readBytes_instructionText]
      congr 1
      apply inductionHypothesis
      · intro listing member
        exact onOneLine listing (List.mem_cons_of_mem _ member)
      · -- The byte before the next row is the last one of this row.
        intro _
        exact line?_before_nextOffset here firstOnOneLine
  | case2 offset outside =>
      have noLines : chunk.lines.toList.length ≤ offset := by
        rw [Array.length_toList, chunk.lines_size]
        exact Nat.not_lt.mp outside
      rw [List.drop_eq_nil_of_le noLines]
      rfl

theorem sameLine_listingAt_nextOffset_iff
    (inside : offset < chunk.size)
    (onOneLine : chunk.OnOneLine (chunk.listingAt offset)) :
    (chunk.listingAt (chunk.nextOffset offset)).sameLine = true ↔
      chunk.line? (chunk.nextOffset offset) = chunk.line? offset := by
  obtain ⟨line, here⟩ := exists_line? inside
  have notFirst := Nat.zero_lt_of_lt (chunk.lt_nextOffset inside)
  rw [sameLine_listingAt_iff, line?_before_nextOffset here onOneLine, here]
  exact and_iff_right notFirst

/-- A row shows a bar exactly when it is on the line of the row above. -/
theorem lineText_eq_bar_iff_line_eq
    {before after : List Listing} {above listing : Listing}
    (onOneLine : chunk.LoadsOnOneLine)
    (split : chunk.listingsFrom 0 = before ++ above :: listing :: after) :
    listing.lineText = "|" ↔ listing.line = above.line := by
  have aboveOnOneLine := onOneLine above (by simp [split])
  obtain ⟨inside, isAbove, rest⟩ := chunk.listing_of_split split
  have restSplit : chunk.listingsFrom _ = [] ++ listing :: after := rest.symm
  obtain ⟨_, isNext, _⟩ := chunk.listing_of_split restSplit
  rw [isAbove] at aboveOnOneLine ⊢
  rw [isNext, Listing.lineText_eq_bar_iff]
  exact sameLine_listingAt_nextOffset_iff inside aboveOnOneLine

/-- Calls that append whole instructions keep the bytes of each on one line. -/
theorem loadsOnOneLine_replay
    {edits : List Edit}
    (whole : ∀ edit ∈ edits, edit.isWhole = true) :
    ((∅ : Chunk).replay edits).LoadsOnOneLine := by
  intro listing listed index isLoad
  obtain ⟨emission, shows⟩ := (encodes_empty.replay whole).exists_shows listed
  have sameInstruction : emission.instruction = .constant index := by
    apply Except.ok.inj
    rw [← shows.decoded, isLoad]
  have twoBytes : emission.instruction.operation.size = 2 := by
    rw [sameInstruction]
    rfl
  have first := shows.onLine 0 (by omega)
  have second := shows.onLine 1 (by omega)
  exact second.trans first.symm

end Chunk

/-! ## Reading whole tables -/

namespace Disassembly

/-- The line and the instruction of every row of a listing table. -/
def readRows (tableText : List Char) : List (List Char × List Char) :=
  (Table.readRows tableText).map fun cells => (cells.getD 1 [], cells.getD 2 [])

/-- All bytes that a listing table stands for. -/
def readCode (tableText : List Char) : List UInt8 :=
  (readRows tableText).flatMap fun row => readBytes row.2

/-- The lines of all bytes.  No bar stands in the first row, so the line above it does not matter. -/
def readLines (tableText : List Char) : List Nat :=
  readByteLines 0 (readRows tableText)

theorem readRows_table (disassembly : Disassembly) :
    readRows disassembly.table.text.toList = disassembly.listings.map Listing.rowTexts := by
  rw [readRows, disassembly.allLegible_table.readRows_text, List.map_map]
  rfl

/-- The text of a disassembly under a given name determines its table. -/
theorem table_text_eq_of_text_eq
    {left right : Disassembly}
    (sameName : left.name = right.name)
    (sameText : left.text = right.text) :
    left.table.text = right.table.text := by
  change "== " ++ left.name ++ " ==\n" ++ left.table.text =
    "== " ++ right.name ++ " ==\n" ++ right.table.text at sameText
  rw [sameName] at sameText
  exact (String.append_right_inj _).mp sameText

end Disassembly

namespace Chunk

theorem readCode_disassemble (chunk : Chunk) (name : String) :
    Disassembly.readCode (chunk.disassemble name).table.text.toList = chunk.code.toList := by
  rw [Disassembly.readCode, Disassembly.readRows_table, List.flatMap_map]
  simp only [Listing.rowTexts, Listing.readBytes_instructionText]
  exact chunk.flatMap_bytes_listingsFrom 0

theorem readLines_disassemble
    {chunk : Chunk}
    (onOneLine : chunk.LoadsOnOneLine)
    (name : String) :
    Disassembly.readLines (chunk.disassemble name).table.text.toList = chunk.lines.toList := by
  rw [Disassembly.readLines, Disassembly.readRows_table]
  exact chunk.readByteLines_listingsFrom 0 0 onOneLine (by simp)

/-- Two chunks that are written alike have the same code.  They have the same lines as well if no
load of either is spread over two lines, where a bar stands for the line of the row above. -/
theorem code_eq_and_lines_eq_of_text_eq
    (left right : Chunk) (name : String)
    (sameText : (left.disassemble name).text = (right.disassemble name).text) :
    left.code = right.code ∧
      (left.LoadsOnOneLine → right.LoadsOnOneLine →
        left.lines = right.lines ∧
          ∀ before above listing after,
            (left.disassemble name).listings = before ++ above :: listing :: after →
              (listing.lineText = "|" ↔ listing.line = above.line)) := by
  have sameName : (left.disassemble name).name = (right.disassemble name).name := rfl
  have sameTable := Disassembly.table_text_eq_of_text_eq sameName sameText
  constructor
  · apply Array.toList_inj.mp
    rw [← left.readCode_disassemble name, sameTable, right.readCode_disassemble name]
  · intro leftOnOneLine rightOnOneLine
    constructor
    · apply Array.toList_inj.mp
      rw [← readLines_disassemble leftOnOneLine name, sameTable,
        readLines_disassemble rightOnOneLine name]
    · intro before above listing after split
      exact lineText_eq_bar_iff_line_eq leftOnOneLine split

/-- Calls that load two constants on one line; the first is given by its bits. -/
def twoLoads (bits : BitVec 64) : List Edit :=
  [ .writeConstant (.number (.ofBits bits)) 12, .writeConstant .nil 12,
    .writeOperation .negate 130, .writeOperation .ret 130 ]

/-- Two neighbouring numbers are both shown as 1.2, so the chunks that load them are written alike.
The second load stands on the line of the first. -/
theorem twoLoads_written_alike :
    let left := (∅ : Chunk).replay (twoLoads 0x3ff3333333333333)
    let right := (∅ : Chunk).replay (twoLoads 0x3ff3333333333334)
    left.constants ≠ right.constants ∧
      (left.disassemble "loads").text = (right.disassemble "loads").text ∧
      left.code = right.code ∧ left.lines = right.lines ∧
      ((left.listingAt 2).lineText = "|" ↔ (left.listingAt 2).line = (left.listingAt 0).line) := by
  intro left right
  have sameTable : (left.disassemble "loads").table.lines tableDisplayFormat =
      (right.disassemble "loads").table.lines tableDisplayFormat := by
    decide +kernel
  have sameText : (left.disassemble "loads").text = (right.disassemble "loads").text := by
    simp only [Disassembly.text, Table.text, sameTable]
    rfl
  have leftOnOneLine : left.LoadsOnOneLine := loadsOnOneLine_replay (by decide)
  have rightOnOneLine : right.LoadsOnOneLine := loadsOnOneLine_replay (by decide)
  obtain ⟨sameCode, further⟩ := code_eq_and_lines_eq_of_text_eq left right "loads" sameText
  obtain ⟨sameLines, bar_iff⟩ := further leftOnOneLine rightOnOneLine
  refine ⟨by decide +kernel, sameText, sameCode, sameLines, ?_⟩
  have first : left.listingsFrom 0 = left.listingAt 0 :: left.listingsFrom 2 :=
    left.listingsFrom_of_lt (by decide)
  have second : left.listingsFrom 2 = left.listingAt 2 :: left.listingsFrom 4 :=
    left.listingsFrom_of_lt (by decide)
  apply bar_iff [] _ _ (left.listingsFrom 4)
  exact first.trans (congrArg _ second)

end Chunk

end StackMachine
