import Mathlib
import Keystroke.Proofs.Csv.Field
import Keystroke.Proofs.Trace

/-!
# Reading what was recorded

A file of a trace says a number for each of three quantities in every row; the columns have headings
and may stand in any order and among others. If every row is an event, these events are what is
read, in order of their ticks; else the first row that is none decides, and in it the first column
with a number that does not fit.
-/

namespace Keystroke

open Csv

namespace TraceEvent

/-- What a row says about its event. -/
inductive Quantity where
  | tick
  | key
  | level
  deriving DecidableEq, Repr

namespace Quantity

/-- The heading of the column. -/
def name : Quantity → List Char
  | tick => "tick".toList
  | key => "key".toList
  | level => "level".toList

/-- What the number has to be below. -/
def limit : Quantity → Nat
  | tick => UInt32.size
  | key => keyCount
  | level => UInt8.size

end Quantity

/-- The numbers of a row, of any size. -/
abbrev Entry := Quantity → Int

namespace Entry

/-- The numbers of an event. -/
def of (event : TraceEvent) : Entry
  | .tick => event.tick.toNat
  | .key => event.key.val
  | .level => event.level.toNat

def Fits (entry : Entry) (quantity : Quantity) : Prop :=
  0 ≤ entry quantity ∧ entry quantity < quantity.limit

instance (entry : Entry) (quantity : Quantity) : Decidable (entry.Fits quantity) :=
  inferInstanceAs (Decidable (_ ∧ _))

/-- What is wrong with one of the numbers, if it does not fit. The index of a key is a number of
eight bits in the first place. -/
def fault? (entry : Entry) (quantity : Quantity) : Option Mismatch :=
  if entry.Fits quantity then none
  else if quantity = .key ∧ 0 ≤ entry .key ∧ entry .key < UInt8.size then
    some (.indexOutOfRange ⟨.key, (entry .key).toNat⟩)
  else some .unfit

end Entry

/-- A column of a file, perhaps one of the quantities. -/
abbrev Column := Option Quantity

/-- A heading with blanks around it. The other columns have other headings. -/
def Column.Heads : Column → Field → Prop
  | some quantity, field => Text.Padded quantity.name field.text
  | none, field => ∀ quantity : Quantity, ¬Text.Padded quantity.name field.text

/-- A field under a column: the number in decimal with blanks around it, or anything. -/
def Entry.Holds (entry : Entry) : Column → Field → Prop
  | some quantity, field => ∃ text, Decimal (entry quantity) text ∧ Text.Padded text field.text
  | none, _ => True

/-- The file says these entries: one line for each, with one column for each quantity. -/
structure Renders (columns : List Column) (entries : List Entry) (sheet : Sheet) : Prop where
  proper : sheet.Proper
  once : ∀ quantity : Quantity, columns.count (some quantity) = 1
  header : List.Forall₂ Column.Heads columns sheet.header.fields
  lines : List.Forall₂ (fun entry line => List.Forall₂ entry.Holds columns line.fields) entries
    sheet.lines

/-! ## Columns -/

/-- The columns that are read so far. -/
def Entry.columns (entry : Entry) (read : List Column) : Columns where
  tick := if some .tick ∈ read then some (entry .tick).toNat.toUInt32 else none
  key := if some .key ∈ read then (Key.ofNat (entry .key).toNat).toOption else none
  level := if some .level ∈ read then some (entry .level).toNat.toUInt8 else none

namespace Columns

/-- Reads the column of a quantity. -/
def readFor (columns : Columns) : Quantity → List Char → Except Mismatch Columns
  | .tick => columns.readTick
  | .key => columns.readKey
  | .level => columns.readLevel

end Columns

variable {entry : Entry} {quantity : Quantity} {column : Column} {columns read : List Column}
  {heading field : Field} {text : List Char} {event : TraceEvent}

theorem number_of_fits {n : Int} {bound : Nat} (H : Decimal n text) (h : 0 ≤ n ∧ n < bound) :
    Columns.number bound text = .ok n.toNat := by
  rw [Columns.number, H.number?_eq, if_pos h]

theorem number_of_not_fits {n : Int} {bound : Nat} (H : Decimal n text) (h : ¬(0 ≤ n ∧ n < bound)) :
    Columns.number bound text = .error .unfit := by
  rw [Columns.number, H.number?_eq, if_neg h]

theorem readNamed_name (h : some quantity ∉ read) (text : List Char) :
    (entry.columns read).readNamed quantity.name text =
      (entry.columns read).readFor quantity text := by
  cases quantity <;> simp [Columns.readNamed, Quantity.name, Entry.columns, h, Columns.readFor]

theorem readKey_of_number {n : Nat} (h : Columns.number UInt8.size text = .ok n)
    (columns : Columns) : columns.readKey text = match Key.ofNat n with
      | .ok key => .ok { columns with key := some key }
      | .error error => .error (.indexOutOfRange error) := by
  rw [Columns.readKey, h]
  rfl

theorem readFor_of_fits (H : Decimal (entry quantity) text) (h : entry.Fits quantity) :
    (entry.columns read).readFor quantity text = .ok (entry.columns (some quantity :: read)) := by
  cases quantity with
  | tick =>
    have hnumber : Columns.number UInt32.size text = .ok (entry .tick).toNat := number_of_fits H h
    rw [Columns.readFor, Columns.readTick, hnumber]
    change Except.ok _ = _
    simp [Entry.columns]
  | key =>
    have hbyte : 0 ≤ entry .key ∧ entry .key < UInt8.size := ⟨h.1, h.2.trans (by decide)⟩
    have hkey : (entry .key).toNat < keyCount := (Int.toNat_lt h.1).mpr h.2
    have hindex : Key.ofNat (entry .key).toNat = .ok ⟨(entry .key).toNat, hkey⟩ := dif_pos hkey
    rw [Columns.readFor, readKey_of_number (number_of_fits H hbyte), hindex]
    simp [Entry.columns, hindex, Except.toOption]
  | level =>
    have hnumber : Columns.number UInt8.size text = .ok (entry .level).toNat := number_of_fits H h
    rw [Columns.readFor, Columns.readLevel, hnumber]
    change Except.ok _ = _
    simp [Entry.columns]

theorem Entry.fault?_eq_none_iff : entry.fault? quantity = none ↔ entry.Fits quantity := by
  rw [Entry.fault?]
  split
  · next h => exact iff_of_true rfl h
  · next h => split <;> exact iff_of_false (Option.some_ne_none _) h

theorem readFor_of_fault {mismatch : Mismatch} (H : Decimal (entry quantity) text)
    (h : entry.fault? quantity = some mismatch) (columns : Columns) :
    columns.readFor quantity text = .error mismatch := by
  have hfits : ¬entry.Fits quantity := by
    rw [← Entry.fault?_eq_none_iff, h]
    exact Option.some_ne_none mismatch
  rw [Entry.fault?, if_neg hfits] at h
  cases quantity with
  | tick =>
    have hnumber : Columns.number UInt32.size text = .error .unfit := number_of_not_fits H hfits
    cases h
    rw [Columns.readFor, Columns.readTick, hnumber]
    rfl
  | key =>
    by_cases hbyte : 0 ≤ entry .key ∧ entry .key < UInt8.size
    · have hkey : ¬(entry .key).toNat < keyCount := fun hkey =>
        hfits ⟨hbyte.1, (Int.toNat_lt hbyte.1).mp hkey⟩
      have hindex : Key.ofNat (entry .key).toNat = .error ⟨.key, (entry .key).toNat⟩ :=
        dif_neg hkey
      rw [if_pos ⟨rfl, hbyte⟩] at h
      cases h
      rw [Columns.readFor, readKey_of_number (number_of_fits H hbyte), hindex]
    · rw [if_neg fun h => hbyte h.2] at h
      cases h
      rw [Columns.readFor, Columns.readKey, number_of_not_fits H hbyte]
      rfl
  | level =>
    have hnumber : Columns.number UInt8.size text = .error .unfit := number_of_not_fits H hfits
    cases h
    rw [Columns.readFor, Columns.readLevel, hnumber]
    rfl

theorem readNamed_other {heading : List Char} (h : ∀ quantity : Quantity, heading ≠ quantity.name)
    (columns : Columns) (text : List Char) : columns.readNamed heading text = .ok columns := by
  have htick : heading ≠ "tick".toList := h .tick
  have hkey : heading ≠ "key".toList := h .key
  have hlevel : heading ≠ "level".toList := h .level
  rw [Columns.readNamed, if_neg htick, if_neg hkey, if_neg hlevel]

theorem trim_heading (H : Text.Padded quantity.name text) : Text.trim text = quantity.name := by
  refine H.trim_eq ?_ ?_ <;> cases quantity <;> simp [Quantity.name, Text.isBlank]

/-- One column of a row: a number that does not fit is refused, and the other columns do not
matter. -/
theorem readNamed_eq (hheading : column.Heads heading) (hfield : entry.Holds column field)
    (hnew : ∀ quantity, column = some quantity → some quantity ∉ read) :
    (entry.columns read).readNamed (Text.trim heading.text) (Text.trim field.text) =
      match column.bind entry.fault? with
      | some mismatch => .error mismatch
      | none => .ok (entry.columns (column :: read)) := by
  cases column with
  | none =>
    have hother : ∀ quantity : Quantity, Text.trim heading.text ≠ quantity.name := by
      intro quantity hname
      exact hheading quantity (hname ▸ Text.padded_trim heading.text)
    rw [readNamed_other hother]
    simp [Entry.columns]
  | some quantity =>
    obtain ⟨text, hdecimal, hpadded⟩ := hfield
    rw [trim_heading hheading, hdecimal.trim_eq hpadded, readNamed_name (hnew quantity rfl),
      Option.bind_some]
    cases hfault : entry.fault? quantity with
    | none =>
      exact readFor_of_fits hdecimal (Entry.fault?_eq_none_iff.mp hfault)
    | some mismatch => exact readFor_of_fault hdecimal hfault _

/-- The columns of a row from left to right. -/
theorem foldlM_readNamed {headings fields : List Field}
    (hheadings : List.Forall₂ Column.Heads columns headings)
    (hfields : List.Forall₂ entry.Holds columns fields)
    (honce : ∀ quantity, read.count (some quantity) + columns.count (some quantity) ≤ 1) :
    ((headings.map fun heading => Text.trim heading.text).zip
      (fields.map fun field => Text.trim field.text)).foldlM
      (fun columns (heading, field) => columns.readNamed heading field) (entry.columns read) =
      match columns.findSome? fun column => column.bind entry.fault? with
      | some mismatch => .error mismatch
      | none => .ok (entry.columns (columns.reverse ++ read)) := by
  induction hheadings generalizing fields read with
  | nil => cases hfields; rfl
  | @cons column heading columns headings hheading _ ih =>
    cases hfields with
    | @cons _ field _ fields hfield hfields =>
      have hnew : ∀ quantity, column = some quantity → some quantity ∉ read := by
        rintro quantity rfl hm
        have hread := List.count_pos_iff.mpr hm
        have hcount := honce quantity
        rw [List.count_cons_self] at hcount
        omega
      have hmore : ∀ quantity,
          (column :: read).count (some quantity) + columns.count (some quantity) ≤ 1 := by
        intro quantity
        have hcount := honce quantity
        rw [List.count_cons] at hcount ⊢
        omega
      simp only [List.map_cons, List.zip_cons_cons, List.foldlM_cons,
        readNamed_eq hheading hfield hnew, List.findSome?_cons]
      cases column.bind entry.fault? with
      | some mismatch => rfl
      | none =>
        rw [List.reverse_cons, List.append_assoc]
        exact ih hfields hmore

/-! ## Rows -/

/-- The first thing that is wrong with an entry. -/
def Entry.firstFault? (entry : Entry) (columns : List Column) : Option Mismatch :=
  columns.findSome? fun column => column.bind entry.fault?

theorem rowTexts?_contents (n : Nat) (line : Line) : rowTexts? ⟨n, line.contents⟩ =
    some (line.fields.map fun field => Text.trim field.text) := by
  have hfields : ∀ fields : List Field, (fields.map fun field => encode field.text).mapM
      fieldText? = some (fields.map fun field => Text.trim field.text) := by
    intro fields
    induction fields with
    | nil => rfl
    | cons field fields ih =>
      rw [List.map_cons, List.mapM_cons, fieldText?_encode, ih]
      rfl
  exact hfields line.fields

/-- The columns with the numbers of an event make that event. -/
theorem finish_columns (h : ∀ quantity, some quantity ∈ columns) (event : TraceEvent) :
    ((Entry.of event).columns columns).finish = .ok event := by
  obtain ⟨tick, key, level⟩ := event
  have hindex : Key.ofNat key.val = .ok key := dif_pos key.isLt
  simp [Entry.columns, h, Entry.of, hindex, Except.toOption, Columns.finish]

theorem Entry.firstFault?_eq_none_iff (h : ∀ quantity, some quantity ∈ columns) :
    entry.firstFault? columns = none ↔ ∀ quantity, entry.Fits quantity := by
  rw [Entry.firstFault?, List.findSome?_eq_none_iff]
  constructor
  · intro hnone quantity
    exact Entry.fault?_eq_none_iff.mp (hnone (some quantity) (h quantity))
  · intro hfits column _
    cases column with
    | none => rfl
    | some quantity => exact Entry.fault?_eq_none_iff.mpr (hfits quantity)

theorem Entry.fits_of (event : TraceEvent) (quantity : Quantity) :
    (Entry.of event).Fits quantity := by
  obtain ⟨tick, key, level⟩ := event
  cases quantity with
  | tick => exact ⟨Int.natCast_nonneg _, Int.ofNat_lt.mpr tick.toNat_lt⟩
  | key => exact ⟨Int.natCast_nonneg _, Int.ofNat_lt.mpr key.isLt⟩
  | level => exact ⟨Int.natCast_nonneg _, Int.ofNat_lt.mpr level.toNat_lt⟩

/-- An entry whose numbers fit is that of an event. -/
theorem Entry.exists_of_fits (h : ∀ quantity, entry.Fits quantity) :
    ∃ event, entry = Entry.of event := by
  have hkey : (entry .key).toNat < keyCount := (Int.toNat_lt (h .key).1).mpr (h .key).2
  have htick : (entry .tick).toNat < UInt32.size := (Int.toNat_lt (h .tick).1).mpr (h .tick).2
  have hlevel : (entry .level).toNat < UInt8.size := (Int.toNat_lt (h .level).1).mpr (h .level).2
  refine ⟨⟨(entry .tick).toNat.toUInt32, ⟨(entry .key).toNat, hkey⟩,
    (entry .level).toNat.toUInt8⟩, funext fun quantity => ?_⟩
  cases quantity with
  | tick =>
    rw [Entry.of, Nat.toUInt32, UInt32.toNat_ofNat_of_lt' htick, Int.toNat_of_nonneg (h .tick).1]
  | key => exact (Int.toNat_of_nonneg (h .key).1).symm
  | level =>
    rw [Entry.of, Nat.toUInt8, UInt8.toNat_ofNat_of_lt' hlevel, Int.toNat_of_nonneg (h .level).1]

variable {header line : Line}

/-- A row is read by its columns from left to right. -/
theorem ofRow_eq (hheader : List.Forall₂ Column.Heads columns header.fields)
    (honce : ∀ quantity : Quantity, columns.count (some quantity) = 1)
    (hline : List.Forall₂ entry.Holds columns line.fields) (number n : Nat) :
    ofRow ⟨number, header.contents⟩ ⟨n, line.contents⟩ = match entry.firstFault? columns with
      | some mismatch => .error (.content n mismatch)
      | none => (entry.columns columns.reverse).finish.mapError (.content n) := by
  have hlength : line.contents.length = header.contents.length := by
    rw [Line.contents, Line.contents, List.length_map, List.length_map, ← hline.length_eq,
      hheader.length_eq]
  have hcount : ∀ quantity : Quantity, ([] : List Column).count (some quantity) +
      columns.count (some quantity) ≤ 1 := fun quantity => by
    rw [honce, List.count_nil]
  have hcolumns := foldlM_readNamed hheader hline hcount
  rw [List.append_nil] at hcolumns
  have hstart : entry.columns [] = {} := by simp [Entry.columns]
  rw [ofRow, if_neg (not_not.mpr hlength), rowTexts?_contents, rowTexts?_contents]
  simp only [ofNamed, ← hstart, hcolumns]
  rw [Entry.firstFault?]
  cases columns.findSome? fun column => column.bind entry.fault? with
  | some mismatch => rfl
  | none =>
    have hfinish : (Except.ok (entry.columns columns.reverse) >>= (·.finish) :
        Except Mismatch TraceEvent) = (entry.columns columns.reverse).finish := rfl
    simp only [hfinish]
    cases (entry.columns columns.reverse).finish <;> rfl

theorem mem_of_once (h : ∀ quantity : Quantity, columns.count (some quantity) = 1)
    (quantity : Quantity) : some quantity ∈ columns :=
  List.count_pos_iff.mp (by rw [h]; exact Nat.one_pos)

/-- A row with the numbers of an event is that event. -/
theorem ofRow_of_event (hheader : List.Forall₂ Column.Heads columns header.fields)
    (honce : ∀ quantity : Quantity, columns.count (some quantity) = 1)
    (hline : List.Forall₂ (Entry.of event).Holds columns line.fields) (number n : Nat) :
    ofRow ⟨number, header.contents⟩ ⟨n, line.contents⟩ = .ok event := by
  have hmem := mem_of_once honce
  rw [ofRow_eq hheader honce hline,
    (Entry.firstFault?_eq_none_iff hmem).mpr (Entry.fits_of event),
    finish_columns (fun quantity => List.mem_reverse.mpr (hmem quantity))]
  rfl

/-! ## Files -/

/-- The rows of lines that are events are those events. -/
theorem mapM_ofRow_of_events {lines : List Line} {events : List TraceEvent}
    (hheader : List.Forall₂ Column.Heads columns header.fields)
    (honce : ∀ quantity : Quantity, columns.count (some quantity) = 1)
    (hlines : List.Forall₂ (fun event line =>
      List.Forall₂ (Entry.of event).Holds columns line.fields) events lines)
    (number : Nat) (before : List Line) :
    (Line.rowsAfter before lines).mapM (ofRow ⟨number, header.contents⟩) = .ok events := by
  induction hlines generalizing before with
  | nil => rfl
  | @cons event line events lines hline _ ih =>
    rw [Line.rowsAfter, List.mapM_cons, ofRow_of_event hheader honce hline, ih]
    rfl

theorem rowsAfter_append (before lines more : List Line) :
    Line.rowsAfter before (lines ++ more) =
      Line.rowsAfter before lines ++ Line.rowsAfter (before ++ lines) more := by
  induction lines generalizing before with
  | nil => rw [List.append_nil]; rfl
  | cons line lines ih =>
    rw [List.cons_append, Line.rowsAfter, Line.rowsAfter, ih, List.append_assoc]
    rfl

/-- The first row that is refused decides about all. -/
theorem mapM_of_error {α β ε : Type} {f : α → Except ε β} {before : List α} {a : α} {found : List β}
    {error : ε} (hbefore : before.mapM f = .ok found) (h : f a = .error error) (after : List α) :
    (before ++ a :: after).mapM f = .error error := by
  rw [List.mapM_append, List.mapM_cons, hbefore, h]
  rfl

theorem Entry.exists_map_of {entries : List Entry}
    (h : ∀ entry ∈ entries, ∀ quantity, entry.Fits quantity) :
    ∃ events : List TraceEvent, entries = events.map Entry.of := by
  have hrange : entries ∈ Set.range (List.map Entry.of) := by
    rw [Set.range_list_map]
    intro entry hm
    obtain ⟨event, rfl⟩ := Entry.exists_of_fits (h entry hm)
    exact ⟨event, rfl⟩
  obtain ⟨events, hevents⟩ := hrange
  exact ⟨events, hevents.symm⟩

end TraceEvent

namespace Trace

open TraceEvent

variable {columns : List Column} {entries : List Entry} {sheet : Sheet}

theorem ofCsv_eq (H : sheet.Proper) : Trace.ofCsv sheet.bytes =
    ofEvents <$> (Line.rowsAfter [sheet.header] sheet.lines).mapM
      (ofRow ⟨Line.numberAfter [], sheet.header.contents⟩) := by
  rw [Trace.ofCsv, Sheet.rows_bytes H]
  rfl

theorem ofCsv_of_events {events : List TraceEvent}
    (H : Renders columns (events.map Entry.of) sheet) :
    Trace.ofCsv sheet.bytes = .ok (ofEvents events) := by
  rw [ofCsv_eq H.proper,
    mapM_ofRow_of_events H.header H.once (List.forall₂_map_left_iff.mp H.lines)]
  rfl

/-- The first line that is no event decides about the file. -/
theorem ofCsv_of_unfit {before after : List Entry} {bad : Entry} {mismatch : Mismatch}
    (H : Renders columns (before ++ bad :: after) sheet)
    (hbefore : ∀ entry ∈ before, ∀ quantity, entry.Fits quantity)
    (hbad : bad.firstFault? columns = some mismatch) :
    Trace.ofCsv sheet.bytes = .error (.content
      (Line.numberAfter (sheet.header :: sheet.lines.take before.length)) mismatch) := by
  obtain ⟨events, rfl⟩ := Entry.exists_map_of hbefore
  have hflip := H.lines.flip
  have hgood := (List.forall₂_take_append _ _ _ hflip).flip
  have hmore := (List.forall₂_drop_append _ _ _ hflip).flip
  obtain ⟨line, rest, hline, -, hdrop⟩ := List.forall₂_cons_left_iff.mp hmore
  have hsplit : sheet.lines = sheet.lines.take (events.map Entry.of).length ++ line :: rest := by
    rw [← hdrop, List.take_append_drop]
  have hevents := mapM_ofRow_of_events H.header H.once (List.forall₂_map_left_iff.mp hgood)
    (Line.numberAfter []) [sheet.header]
  have hrow := ofRow_eq H.header H.once hline (Line.numberAfter [])
    (Line.numberAfter (sheet.header :: sheet.lines.take (events.map Entry.of).length))
  rw [hbad] at hrow
  rw [ofCsv_eq H.proper]
  conv_lhs => rw [hsplit, rowsAfter_append, Line.rowsAfter]
  rw [List.singleton_append, mapM_of_error hevents hrow]
  rfl

/-- A file of events is read as these events in order, and a file with rows that are none is refused
for the first of them. -/
theorem csv_is_read_faithfully (H : Renders columns entries sheet) :
    (∀ events : List TraceEvent, entries = events.map Entry.of →
      ∃ trace, Trace.ofCsv sheet.bytes = .ok trace ∧ trace.Sorts events) ∧
    ((∃ entry ∈ entries, ∃ quantity, ¬entry.Fits quantity) →
      ∃ before bad after mismatch, entries = before ++ bad :: after ∧
        (∀ entry ∈ before, ∀ quantity, entry.Fits quantity) ∧
        bad.firstFault? columns = some mismatch ∧
        Trace.ofCsv sheet.bytes = .error (.content
          (Line.numberAfter (sheet.header :: sheet.lines.take before.length)) mismatch)) := by
  have hmem := mem_of_once H.once
  constructor
  · rintro events rfl
    exact ⟨ofEvents events, ofCsv_of_events H, sorts_ofEvents events⟩
  · rintro ⟨entry, hentry, hunfit⟩
    have hfault : (entry.firstFault? columns).isSome = true := by
      rw [Option.isSome_iff_ne_none, ne_eq, Entry.firstFault?_eq_none_iff hmem, not_forall]
      exact hunfit
    have hfound : (entries.find? fun other => (other.firstFault? columns).isSome).isSome = true :=
      List.find?_isSome.mpr ⟨entry, hentry, hfault⟩
    obtain ⟨bad, hfind⟩ := Option.isSome_iff_exists.mp hfound
    obtain ⟨hbad, before, after, rfl, hbefore⟩ := List.find?_eq_some_iff_append.mp hfind
    obtain ⟨mismatch, hmismatch⟩ := Option.isSome_iff_exists.mp hbad
    have hfits : ∀ other ∈ before, ∀ quantity, other.Fits quantity := by
      intro other hm
      have hnone := hbefore other hm
      rw [Bool.not_eq_true', Option.isSome_eq_false_iff, Option.isNone_iff_eq_none] at hnone
      exact (Entry.firstFault?_eq_none_iff hmem).mp hnone
    exact ⟨before, bad, after, mismatch, rfl, hfits, hmismatch, ofCsv_of_unfit H hfits hmismatch⟩

/-- Two events, and the same file with a row between them whose key is none of the board. -/
theorem csv_is_read_faithfully_out_of_order :
    let late : TraceEvent := ⟨150, 7, 0⟩
    let early : TraceEvent := ⟨0, 7, 1⟩
    let header : Line := ⟨[.lf], [⟨[' ', 'l', 'e', 'v', 'e', 'l'], false⟩, ⟨['"', ','], true⟩,
      ⟨['t', 'i', 'c', 'k', ' '], true⟩, ⟨['k', 'e', 'y'], false⟩], .crlf⟩
    let first : Line := ⟨[], [⟨['0'], false⟩, ⟨[], false⟩, ⟨['1', '5', '0'], true⟩,
      ⟨['7', ' '], false⟩], .cr⟩
    let second : Line := ⟨[.lf], [⟨['1'], false⟩, ⟨['\n'], true⟩, ⟨['0', '0'], false⟩,
      ⟨[' ', '7'], true⟩], .lf⟩
    let foreign : Line := ⟨[], [⟨['1'], false⟩, ⟨['x'], false⟩, ⟨['3'], false⟩,
      ⟨['4', '2'], false⟩], .lf⟩
    (∃ trace, Trace.ofCsv (Sheet.mk true header [first, second] []).bytes = .ok trace ∧
      trace.Sorts [late, early]) ∧
    Trace.ofCsv (Sheet.mk true header [first, foreign, second] [.cr]).bytes =
      .error (.content 3 (.indexOutOfRange ⟨.key, 42⟩)) := by
  intro late early header first second foreign
  let columns : List Column := [some .level, none, some .tick, some .key]
  let bad : Entry := fun
    | .tick => 3
    | .key => 42
    | .level => 1
  have hpadded : ∀ core left right : List Char, left.all Text.isBlank = true →
      right.all Text.isBlank = true → Text.Padded core (left ++ (core ++ right)) :=
    fun core left right hleft hright =>
      ⟨left, right, List.all_eq_true.mp hleft, List.all_eq_true.mp hright, rfl⟩
  have hnumber : ∀ (core left right : List Char), core ≠ [] → core.all Char.isDigit = true →
      left.all Text.isBlank = true → right.all Text.isBlank = true →
      ∃ text, Decimal (Json.digitsValue core) text ∧ Text.Padded text (left ++ (core ++ right)) :=
    fun core left right hne hdigits hleft hright =>
      ⟨core, .plain ⟨hne, List.all_eq_true.mp hdigits⟩, hpadded core left right hleft hright⟩
  have hproper : ∀ line ∈ [header, first, second, foreign], line.Proper := by decide
  have hother : ∀ quantity : Quantity, ¬Text.Padded quantity.name ['"', ','] := by
    intro quantity H
    have htrim := trim_heading H
    revert htrim
    cases quantity <;> simp [Text.trim, Quantity.name, Text.isBlank]
  have hheader : List.Forall₂ Column.Heads columns header.fields :=
    .cons (hpadded Quantity.level.name [' '] [] rfl rfl) (.cons hother
      (.cons (hpadded Quantity.tick.name [] [' '] rfl rfl)
        (.cons (hpadded Quantity.key.name [] [] rfl rfl) .nil)))
  have hfirst : List.Forall₂ (Entry.of late).Holds columns first.fields :=
    .cons (hnumber ['0'] [] [] (by decide) rfl rfl rfl) (.cons trivial
      (.cons (hnumber ['1', '5', '0'] [] [] (by decide) rfl rfl rfl)
        (.cons (hnumber ['7'] [] [' '] (by decide) rfl rfl rfl) .nil)))
  have hsecond : List.Forall₂ (Entry.of early).Holds columns second.fields :=
    .cons (hnumber ['1'] [] [] (by decide) rfl rfl rfl) (.cons trivial
      (.cons (hnumber ['0', '0'] [] [] (by decide) rfl rfl rfl)
        (.cons (hnumber ['7'] [' '] [] (by decide) rfl rfl rfl) .nil)))
  have hforeign : List.Forall₂ bad.Holds columns foreign.fields :=
    .cons (hnumber ['1'] [] [] (by decide) rfl rfl rfl) (.cons trivial
      (.cons (hnumber ['3'] [] [] (by decide) rfl rfl rfl)
        (.cons (hnumber ['4', '2'] [] [] (by decide) rfl rfl rfl) .nil)))
  have hsheet : ∀ lines empties, lines ⊆ [header, first, second, foreign] →
      (Sheet.mk true header lines empties).Proper := fun lines empties h =>
    ⟨hproper _ List.mem_cons_self, fun line hm => hproper line (h hm), .inl rfl⟩
  have honce : ∀ quantity : Quantity, columns.count (some quantity) = 1 := fun quantity => by
    cases quantity <;> rfl
  have hgood : Renders columns ([late, early].map Entry.of)
      (Sheet.mk true header [first, second] []) :=
    { proper := hsheet _ _ (by simp)
      once := honce
      header := hheader
      lines := .cons hfirst (.cons hsecond .nil) }
  have hbad : Renders columns [Entry.of late, bad, Entry.of early]
      (Sheet.mk true header [first, foreign, second] [.cr]) :=
    { proper := hsheet _ _ (by simp)
      once := honce
      header := hheader
      lines := .cons hfirst (.cons hforeign (.cons hsecond .nil)) }
  refine ⟨(csv_is_read_faithfully hgood).1 [late, early] rfl, ?_⟩
  have hunfit : ¬bad.Fits .key := by decide
  obtain ⟨before, entry, after, mismatch, hsplit, hbefore, hmismatch, hrefused⟩ :=
    (csv_is_read_faithfully hbad).2 ⟨bad, by simp, .key, hunfit⟩
  -- the row at fault is the second one
  cases before with
  | nil =>
    obtain ⟨rfl, -⟩ := List.cons.inj hsplit
    have hfits := (Entry.firstFault?_eq_none_iff (mem_of_once honce)).mpr (Entry.fits_of late)
    rw [hfits] at hmismatch
    cases hmismatch
  | cons _ before =>
    obtain ⟨-, hsplit⟩ := List.cons.inj hsplit
    cases before with
    | nil =>
      obtain ⟨rfl, -⟩ := List.cons.inj hsplit
      cases hmismatch
      exact hrefused
    | cons other before =>
      obtain ⟨rfl, -⟩ := List.cons.inj hsplit
      exact absurd (hbefore bad (by simp) .key) hunfit

end Trace

end Keystroke
