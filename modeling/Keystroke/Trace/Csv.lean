import Keystroke.Csv.Row
import Keystroke.Text.Blank
import Keystroke.Trace

/-!
# Traces as comma-separated values

The first row names the columns. The columns `tick`, `key` and `level` may stand in any order and
among others; every row has as many fields as the first. Blanks around a field do not count, also
those inside its quotes. If the first row is no text, the columns are taken by position.

Of the CSV package it is assumed that it reads rows in this way into a record of three numbers: the
rows are taken in order up to the first one at fault, of which the number of fields counts first,
then that it is text, then the fields from left to right; numbers are decimal, or hexadecimal after
`0x`, with an optional plus sign; and the fault names the line of the row.
-/

namespace Keystroke

open Csv

namespace Csv

/-- What is wrong with a row whose fields are text. -/
inductive Mismatch where
  | missingField (name : String)
  | duplicateField (name : String)
  | indexOutOfRange (error : IndexError)
  /-- A field that is no number or is too large for its column, or too few columns. -/
  | unfit
  deriving DecidableEq, Repr

/-- The wording of a mismatch, as far as it has one. -/
def Mismatch.message? : Mismatch → Option String
  | missingField name => some ("missing field `" ++ name ++ "`")
  | duplicateField name => some ("duplicate field `" ++ name ++ "`")
  | indexOutOfRange error => some error.message
  | unfit => none

/-- Why a file is refused; the line is that of the row at fault. -/
inductive Fault where
  | length (line expected found : Nat)
  | notText (line : Nat)
  | content (line : Nat) (mismatch : Mismatch)
  deriving DecidableEq, Repr

def Fault.message : Fault → String
  | length line expected found =>
    "line " ++ toString line ++ ": " ++ toString found ++ " fields, the first row has " ++
      toString expected
  | notText line => "line " ++ toString line ++ ": not UTF-8"
  | content line mismatch =>
    "line " ++ toString line ++ ": " ++ mismatch.message?.getD "unreadable number"

/-- The characters of a field without the blanks around them, if its bytes are text. -/
def fieldText? (bytes : Bytes) : Option (List Char) :=
  (String.fromUTF8? ⟨bytes.toArray⟩).map fun text => Text.trim text.toList

/-- The fields of a row as texts, if all of them are. -/
def rowTexts? (row : Row) : Option (List (List Char)) := row.fields.mapM fieldText?

/-- The value of a digit in a base up to 16. -/
def digit? (base : Nat) (char : Char) : Option Nat :=
  let value? :=
    if char.isDigit then some (char.toNat - '0'.toNat)
    else if 'a' ≤ char ∧ char ≤ 'f' then some (char.toNat - 'a'.toNat + 10)
    else if 'A' ≤ char ∧ char ≤ 'F' then some (char.toNat - 'A'.toNat + 10)
    else none
  value?.filter (· < base)

/-- The number written by digits in a base, at least one. -/
def ofDigits? (base : Nat) : List Char → Option Nat
  | [] => none
  | chars => chars.foldlM (fun value char => (digit? base char).map (base * value + ·)) 0

/-- A number with an optional plus sign. -/
def signed? (base : Nat) : List Char → Option Nat
  | '+' :: chars => ofDigits? base chars
  | chars => ofDigits? base chars

/-- A number below a bound: hexadecimal after `0x`, else decimal. -/
def number? (bound : Nat) (chars : List Char) : Option Nat :=
  let value? :=
    match chars with
    | '0' :: 'x' :: rest => signed? 16 rest
    | chars => signed? 10 chars
  value?.filter (· < bound)

end Csv

namespace TraceEvent

structure Columns where
  tick : Option Tick := none
  key : Option Key := none
  level : Option UInt8 := none
  deriving DecidableEq, Repr

namespace Columns

/-- A number below a bound, or the complaint that there is none. -/
def number (bound : Nat) (field : List Char) : Except Mismatch Nat :=
  match number? bound field with
  | some n => .ok n
  | none => .error .unfit

def readTick (columns : Columns) (field : List Char) : Except Mismatch Columns := do
  pure { columns with tick := some (← number UInt32.size field).toUInt32 }

/-- Reads the column of the key, a number of eight bits first. -/
def readKey (columns : Columns) (field : List Char) : Except Mismatch Columns := do
  match Key.ofNat (← number UInt8.size field) with
  | .ok key => pure { columns with key := some key }
  | .error error => throw (.indexOutOfRange error)

def readLevel (columns : Columns) (field : List Char) : Except Mismatch Columns := do
  pure { columns with level := some (← number UInt8.size field).toUInt8 }

/-- Reads the field under a heading; a heading that is not known is passed over. -/
def readNamed (columns : Columns) (heading field : List Char) : Except Mismatch Columns :=
  if heading = "tick".toList then
    if columns.tick.isSome then .error (.duplicateField "tick") else columns.readTick field
  else if heading = "key".toList then
    if columns.key.isSome then .error (.duplicateField "key") else columns.readKey field
  else if heading = "level".toList then
    if columns.level.isSome then .error (.duplicateField "level") else columns.readLevel field
  else .ok columns

/-- The event, if all columns are there. -/
def finish (columns : Columns) : Except Mismatch TraceEvent :=
  match columns with
  | ⟨none, _, _⟩ => .error (.missingField "tick")
  | ⟨some _, none, _⟩ => .error (.missingField "key")
  | ⟨some _, some _, none⟩ => .error (.missingField "level")
  | ⟨some tick, some key, some level⟩ => .ok { tick, key, level }

end Columns

/-- The event of a row, by the headings of its columns. -/
def ofNamed (headings fields : List (List Char)) : Except Mismatch TraceEvent := do
  let columns ← (headings.zip fields).foldlM
    (fun columns (heading, field) => columns.readNamed heading field) ({} : Columns)
  columns.finish

/-- The event of a row, by the positions of its columns. -/
def ofPositions (fields : List (List Char)) : Except Mismatch TraceEvent := do
  let readers := [Columns.readTick, Columns.readKey, Columns.readLevel]
  let columns ← (readers.zip fields).foldlM
    (fun columns (reader, field) => reader columns field) ({} : Columns)
  match columns.finish with
  | .ok event => pure event
  | .error _ => throw .unfit

/-- The event of a row, given the first row of the file. -/
def ofRow (header row : Row) : Except Csv.Fault TraceEvent :=
  if row.fields.length ≠ header.fields.length then
    .error (.length row.line header.fields.length row.fields.length)
  else
    match rowTexts? row with
    | none => .error (.notText row.line)
    | some fields =>
      let event :=
        match rowTexts? header with
        | some headings => ofNamed headings fields
        | none => ofPositions fields
      match event with
      | .ok event => .ok event
      | .error mismatch => .error (.content row.line mismatch)

end TraceEvent

/-- The trace of a file; the first row that cannot be read decides. -/
def Trace.ofCsv (bytes : Bytes) : Except Csv.Fault Trace :=
  match Csv.rows bytes with
  | [] => .ok (ofEvents [])
  | header :: rows => do
    pure (ofEvents (← rows.mapM (TraceEvent.ofRow header)))

end Keystroke
