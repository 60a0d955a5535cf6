import Keystroke.Action

/-!
# Reports

A report holds the codes emitted in one cycle, without duplicates, in the order of their first
insertion. `Report.toBitmap` is the form a host reads: the modifier byte, and one bit for each usage
that is no modifier.
-/

namespace Keystroke

/-- The codes sent in one cycle. -/
structure Report where
  codes : List KeyCode := []
  deriving DecidableEq, Repr

/-- The room of a report: every key with its largest chord at once. -/
abbrev Report.capacity : Nat := keyCount * maxChordCodes

/-- The usages of a report as a bitmap, with the modifiers in a byte of their own. -/
structure Bitmap where
  modifiers : UInt8 := 0
  bytes : Slots 32 UInt8 := Slots.fill 0
  deriving DecidableEq, Repr

namespace Bitmap

/-- The byte and the bit that stand for a usage. -/
def slot (usage : UInt8) : Fin 32 × UInt8 :=
  (⟨usage.toNat / 8, by have := usage.toNat_lt; omega⟩, 1 <<< (usage % 8))

def insert (bitmap : Bitmap) (code : KeyCode) : Bitmap :=
  match code.modifierBit? with
  | some bit => { bitmap with modifiers := bitmap.modifiers ||| bit }
  | none =>
    let (byte, bit) := slot code.usage
    { bitmap with bytes := bitmap.bytes.set byte (bitmap.bytes[byte] ||| bit) }

def contains (bitmap : Bitmap) (code : KeyCode) : Bool :=
  match code.modifierBit? with
  | some bit => bitmap.modifiers &&& bit != 0
  | none =>
    let (byte, bit) := slot code.usage
    bitmap.bytes[byte] &&& bit != 0

end Bitmap

namespace Report

def size (report : Report) : Nat := report.codes.length

def isEmpty (report : Report) : Bool := report.codes.isEmpty

def contains (report : Report) (code : KeyCode) : Bool := report.codes.contains code

/-- Adds a code at the end; the answer is false, and nothing changes, if it was there already. -/
def insert (report : Report) (code : KeyCode) : Report × Bool :=
  if report.contains code then (report, false) else (⟨report.codes ++ [code]⟩, true)

def insertAll (report : Report) (codes : List KeyCode) : Report :=
  codes.foldl (fun report code => (report.insert code).1) report

/-- The modifier byte for the modifiers of a report. -/
def modifiers (report : Report) : UInt8 :=
  (report.codes.filterMap KeyCode.modifierBit?).foldl (· ||| ·) 0

/-- The form of a report that a host reads. -/
def toBitmap (report : Report) : Bitmap := report.codes.foldl Bitmap.insert {}

end Report

/-- Collects the codes of a cycle and keeps the report of the last one. -/
structure Assembler where
  current : Report := {}
  last : Report := {}
  deriving DecidableEq, Repr

namespace Assembler

/-- Starts a cycle with no codes. -/
def start (assembler : Assembler) : Assembler := { assembler with current := {} }

/-- Adds the codes of an action; a tap-hold pair has none. -/
def add (assembler : Assembler) (action : Action) : Assembler :=
  match action.basic? with
  | some basic => { assembler with current := assembler.current.insertAll basic.codes }
  | none => assembler

/-- Ends a cycle: its report becomes the last one. -/
def finish (assembler : Assembler) : Assembler × Report :=
  ({ assembler with last := assembler.current }, assembler.current)

end Assembler

end Keystroke
