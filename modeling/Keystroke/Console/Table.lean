/-!
# Tables on the console

A table is drawn with plain characters. A column is as wide as its longest line, and at least one
character; every cell has a blank on both sides. Cells may hold several lines, and rows may be
shorter than the widest one.

The table package is assumed to draw its tables like this when the console is no terminal: without
colours, and as wide as the cells need.
-/

namespace Keystroke.Console

/-- Where the text of a cell stands in its column. -/
inductive Alignment where
  | left
  | center
  | right
  deriving DecidableEq, Repr

/-- The lines of a cell. -/
abbrev Lines := List String

/-- A table; the header is drawn apart from the rows. -/
structure Table where
  header : Option (List Lines) := none
  rows : List (List Lines)
  /-- The alignment of the columns by number, for the header too. -/
  alignment : Nat → Alignment := fun _ => .left

/-- `n` blanks. -/
def blanks (n : Nat) : String := "".pushn ' ' n

/-- A line filled up to a width; in the middle, the larger part of the blanks goes to the left. -/
def Alignment.fill (alignment : Alignment) (width : Nat) (line : String) : String :=
  let spare := width - line.length
  match alignment with
  | left => line ++ blanks spare
  | right => blanks spare ++ line
  | center => blanks (spare - spare / 2) ++ line ++ blanks (spare / 2)

namespace Table

/-- The header, if any, and the rows. -/
def allRows (table : Table) : List (List Lines) := table.header.toList ++ table.rows

/-- Number of columns. -/
def columns (table : Table) : Nat := (table.allRows.map List.length).foldl max 0

/-- The width of a column without the blanks around it. -/
def width (table : Table) (column : Nat) : Nat :=
  (table.allRows.flatMap fun row => (row[column]?.getD []).map String.length).foldl max 1

/-- The widths of all columns. -/
def widths (table : Table) : List Nat := (List.range table.columns).map table.width

/-- A horizontal line: its ends, what it is made of, and what joins the columns. -/
def rule (ends fill joint : String) (widths : List Nat) : String :=
  let lines := widths.map fun width => String.join (List.replicate (width + 2) fill)
  ends ++ joint.intercalate lines ++ ends

/-- The lines of one row. -/
def drawRow (table : Table) (widths : List Nat) (row : List Lines) : List String :=
  let height := (row.map List.length).foldl max 1
  (List.range height).map fun line =>
    let cells := widths.mapIdx fun column width =>
      " " ++ (table.alignment column).fill width (((row[column]?.getD [])[line]?).getD "") ++ " "
    "|" ++ "|".intercalate cells ++ "|"

/-- The lines of a table. -/
def draw (table : Table) : List String :=
  let widths := table.widths
  let edge := rule "+" "-" "+" widths
  let header :=
    match table.header with
    | some header => table.drawRow widths header ++ [rule "+" "=" "=" widths]
    | none => []
  let rows := (table.rows.map (table.drawRow widths)).intersperse [rule "|" "-" "+" widths]
  [edge] ++ header ++ rows.flatten ++ [edge]

/-- The text of a table, without a line end after its last line. -/
def text (table : Table) : String := "\n".intercalate table.draw

end Table

end Keystroke.Console
