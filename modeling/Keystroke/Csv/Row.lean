/-!
# Rows of comma-separated values

Bytes are split into rows and rows into fields, before anything is known of the text they hold. A
field that starts with a quote runs to the closing quote and may hold commas and line ends; a quote
inside is written twice, and what follows the closing quote is part of the field. A row ends with a
line feed or a carriage return, and empty lines are no rows.

The CSV package is assumed to split its input by these rules, to end the last row with the input,
and to count a line for each line feed.
-/

namespace Keystroke.Csv

/-- The bytes of one field. -/
abbrev Bytes := List UInt8

/-- The byte that starts and ends a quoted field. -/
abbrev quote : UInt8 := 0x22

/-- The byte between two fields. -/
abbrev comma : UInt8 := 0x2C

/-- The byte that ends a line. -/
abbrev lineFeed : UInt8 := 0x0A

/-- The other byte that ends a row. -/
abbrev carriageReturn : UInt8 := 0x0D

/-- The fields of a row and where it was found. -/
structure Row where
  /-- One more than the line feeds before the reading of the row began, so that empty lines just
  before a row do not count. -/
  line : Nat
  fields : List Bytes
  deriving DecidableEq, Repr

/-- Where the splitter stands. -/
inductive Mode where
  | rowStart
  | fieldStart
  | plain
  | quoted
  /-- After a quote in a quoted field, which ends it unless another quote follows. -/
  | quoteSeen
  deriving DecidableEq, Repr

/-- The splitter between two bytes. -/
structure Splitter where
  mode : Mode := .rowStart
  /-- The bytes of the current field, last one first. -/
  field : Bytes := []
  /-- The fields of the current row before that, last one first. -/
  fields : List Bytes := []
  /-- The line on which the reading of the current row began. -/
  start : Nat := 1
  /-- One more than the line feeds so far. -/
  line : Nat := 1
  deriving DecidableEq, Repr

namespace Splitter

/-- Adds a byte to the current field. -/
def push (splitter : Splitter) (mode : Mode) (byte : UInt8) : Splitter :=
  { splitter with mode, field := byte :: splitter.field }

/-- Ends the current field. -/
def endField (splitter : Splitter) : Splitter :=
  { splitter with
    mode := .fieldStart
    field := []
    fields := splitter.field.reverse :: splitter.fields }

/-- The row that ends here. -/
def row (splitter : Splitter) : Row := ⟨splitter.start, splitter.endField.fields.reverse⟩

/-- The splitter at the start of the next row. -/
def nextRow (splitter : Splitter) : Splitter := { start := splitter.line, line := splitter.line }

/-- A byte that is outside quotes; `otherwise` says what becomes of an ordinary one. -/
def outside (splitter : Splitter) (byte : UInt8) (otherwise : Splitter) :
    Splitter × Option Row :=
  if byte = comma then (splitter.endField, none)
  else if byte = lineFeed ∨ byte = carriageReturn then (splitter.nextRow, some splitter.row)
  else (otherwise, none)

/-- A byte at the start of a field. -/
def first (splitter : Splitter) (byte : UInt8) : Splitter × Option Row :=
  if byte = quote then ({ splitter with mode := .quoted }, none)
  else splitter.outside byte (splitter.push .plain byte)

/-- Takes one byte; a row that ends with it is handed out. -/
def step (splitter : Splitter) (byte : UInt8) : Splitter × Option Row :=
  let splitter :=
    if byte = lineFeed then { splitter with line := splitter.line + 1 } else splitter
  match splitter.mode with
  | .rowStart =>
    if byte = lineFeed ∨ byte = carriageReturn then (splitter, none) else splitter.first byte
  | .fieldStart => splitter.first byte
  | .plain => splitter.outside byte (splitter.push .plain byte)
  | .quoted =>
    if byte = quote then ({ splitter with mode := .quoteSeen }, none)
    else (splitter.push .quoted byte, none)
  | .quoteSeen =>
    if byte = quote then (splitter.push .quoted byte, none)
    else splitter.outside byte (splitter.push .plain byte)

/-- The rows of the bytes that are left. -/
def rows (splitter : Splitter) : Bytes → List Row
  | [] => if splitter.mode = .rowStart then [] else [splitter.row]
  | byte :: bytes =>
    match splitter.step byte with
    | (splitter, none) => splitter.rows bytes
    | (splitter, some row) => row :: splitter.rows bytes

end Splitter

/-- Drops the mark that some writers put in front of a text. -/
def dropMark : Bytes → Bytes
  | 0xEF :: 0xBB :: 0xBF :: bytes => bytes
  | bytes => bytes

/-- The rows of a file. -/
def rows (bytes : Bytes) : List Row := ({} : Splitter).rows (dropMark bytes)

end Keystroke.Csv
