import Mathlib
import Keystroke.Csv.Row

/-!
# Splitting what is written

A `Sheet` is a file of comma-separated values as it can be written: lines of fields, each field
plain or between quotes, lines ended in any of three ways, with empty lines anywhere and perhaps a
mark in front. The splitter gives back the fields of every line (`Sheet.rows_bytes`). Along the way
it holds the fields of the line so far, so that each piece of a line is one lemma about what is
split after it, for whatever comes next: `rows_field`, `rows_further`, `rows_line`.
-/

namespace Keystroke.Csv

/-! ## Files as they are written -/

/-- The bytes of a text. -/
def encode (text : List Char) : Bytes := text.flatMap String.utf8EncodeChar

/-- A field as it is written. -/
structure Field where
  /-- The text of the field, with all blanks around it. -/
  text : List Char
  quoted : Bool
  deriving DecidableEq, Repr

/-- Between quotes, a quote is written twice. -/
def escape (byte : UInt8) : Bytes := if byte = quote then [quote, quote] else [byte]

def Field.bytes (field : Field) : Bytes :=
  if field.quoted then quote :: ((encode field.text).flatMap escape ++ [quote])
  else encode field.text

/-- Without quotes, a field does not start with a quote and has neither commas nor line ends. -/
def Field.Proper (field : Field) : Prop :=
  field.quoted = true ∨ field.text.head? ≠ some '"' ∧
    ∀ char ∈ field.text, char ≠ ',' ∧ char ≠ '\n' ∧ char ≠ '\r'

instance (field : Field) : Decidable field.Proper :=
  -- the search would enumerate all characters
  have : Decidable (∀ char ∈ field.text, char ≠ ',' ∧ char ≠ '\n' ∧ char ≠ '\r') :=
    List.decidableBAll ..
  inferInstanceAs (Decidable (_ ∨ _ ∧ _))

/-- How a line ends. -/
inductive Ending where
  | lf
  | crlf
  | cr
  deriving DecidableEq, Repr

/-- The byte that ends the row. -/
def Ending.first : Ending → UInt8
  | lf => lineFeed
  | crlf | cr => carriageReturn

/-- What is left of the ending after that. -/
def Ending.rest : Ending → Bytes
  | lf | cr => []
  | crlf => [lineFeed]

def Ending.bytes (ending : Ending) : Bytes := ending.first :: ending.rest

/-- A line and the empty lines before it. -/
structure Line where
  empties : List Ending
  fields : List Field
  ending : Ending
  deriving DecidableEq, Repr

namespace Line

/-- Fields behind their commas. -/
def further (fields : List Field) : Bytes := fields.flatMap fun field => comma :: field.bytes

/-- The fields with commas between them. -/
def body (line : Line) : Bytes :=
  match line.fields with
  | [] => []
  | field :: fields => field.bytes ++ further fields

/-- The line up to the byte that ends its row, and the empty lines before it. -/
def head (line : Line) : Bytes :=
  line.empties.flatMap Ending.bytes ++ (line.body ++ [line.ending.first])

def bytes (line : Line) : Bytes := line.head ++ line.ending.rest

/-- The line has several fields, each of them proper. -/
structure Proper (line : Line) : Prop where
  several : 2 ≤ line.fields.length
  fields : ∀ field ∈ line.fields, field.Proper

instance (line : Line) : Decidable line.Proper :=
  decidable_of_iff (2 ≤ line.fields.length ∧ ∀ field ∈ line.fields, field.Proper)
    ⟨fun h => ⟨h.1, h.2⟩, fun H => ⟨H.several, H.fields⟩⟩

/-- What the fields say, as bytes. -/
def contents (line : Line) : List Bytes := line.fields.map fun field => encode field.text

/-- The line on which the row after some lines is found: one more than the line feeds up to the byte
that ended the last of their rows. -/
def numberAfter (before : List Line) : Nat :=
  1 + (before.dropLast.flatMap bytes ++ (before.getLast?.map head).getD []).count lineFeed

/-- The rows that lines are, which stand behind others. -/
def rowsAfter (before : List Line) : List Line → List Row
  | [] => []
  | line :: lines => ⟨numberAfter before, line.contents⟩ :: rowsAfter (before ++ [line]) lines

end Line

/-- A file: its first line, which names the columns, and the others. -/
structure Sheet where
  /-- There is a mark in front. -/
  marked : Bool
  header : Line
  lines : List Line
  /-- Empty lines at the end. -/
  empties : List Ending
  deriving DecidableEq, Repr

/-- The mark that can stand in front of a text. -/
def mark : Bytes := [0xEF, 0xBB, 0xBF]

namespace Sheet

/-- The file without the mark. -/
def text (sheet : Sheet) : Bytes :=
  (sheet.header :: sheet.lines).flatMap Line.bytes ++ sheet.empties.flatMap Ending.bytes

def bytes (sheet : Sheet) : Bytes := (if sheet.marked then mark else []) ++ sheet.text

/-- The lines are proper, and the file does not begin as if there was a mark when there is none. -/
structure Proper (sheet : Sheet) : Prop where
  header : sheet.header.Proper
  lines : ∀ line ∈ sheet.lines, line.Proper
  unmarked : sheet.marked = true ∨ ¬mark <+: sheet.text

end Sheet

/-! ## Bytes of a text -/

/-- A byte below 128 stands for the character of that number alone. -/
theorem toNat_of_mem_utf8EncodeChar {char : Char} {byte : UInt8}
    (h : byte ∈ String.utf8EncodeChar char) (hb : byte.toNat < 128) :
    char.toNat = byte.toNat := by
  have hhigh : ∀ n, 128 ≤ n → n < 256 → byte ≠ UInt8.ofNat n := by
    rintro n hlow hn rfl
    rw [UInt8.toNat_ofNat_of_lt' hn] at hb
    omega
  unfold String.utf8EncodeChar at h
  simp only at h
  split at h
  · next hsmall =>
    rw [List.mem_singleton.mp h, UInt8.toNat_ofNat_of_lt']
    · rfl
    · exact Nat.lt_of_le_of_lt hsmall (by decide)
  · -- every byte of a longer encoding has its highest bit set
    exfalso
    split at h
    · simp only [List.mem_cons, List.not_mem_nil, or_false] at h
      rcases h with h | h <;> exact hhigh _ (by omega) (by omega) h
    · split at h
      · simp only [List.mem_cons, List.not_mem_nil, or_false] at h
        rcases h with h | h | h <;> exact hhigh _ (by omega) (by omega) h
      · simp only [List.mem_cons, List.not_mem_nil, or_false] at h
        rcases h with h | h | h | h <;> exact hhigh _ (by omega) (by omega) h

/-- The bytes that matter to the splitter stand for characters that do. -/
theorem mem_of_mem_encode {text : List Char} {byte : UInt8} (h : byte ∈ encode text)
    (hb : byte.toNat < 128) : Char.ofNat byte.toNat ∈ text := by
  obtain ⟨char, hm, hbyte⟩ := List.mem_flatMap.mp h
  rw [← toNat_of_mem_utf8EncodeChar hbyte hb, Char.ofNat_toNat]
  exact hm

theorem head?_encode {text : List Char} {byte : UInt8} (h : (encode text).head? = some byte)
    (hb : byte.toNat < 128) : text.head? = some (Char.ofNat byte.toNat) := by
  cases text with
  | nil => cases h
  | cons char text =>
    obtain ⟨first, more, hchar⟩ := List.exists_cons_of_ne_nil (@String.utf8EncodeChar_ne_nil char)
    rw [encode, List.flatMap_cons, hchar] at h
    obtain rfl := Option.some.inj h
    have hm : first ∈ String.utf8EncodeChar char := hchar ▸ List.mem_cons_self
    rw [← toNat_of_mem_utf8EncodeChar hm hb, Char.ofNat_toNat]
    rfl

/-! ## The splitter -/

namespace Splitter

variable {splitter next : Splitter} {byte : UInt8} {row : Row} {bytes rest : Bytes}

theorem rows_of_step (h : splitter.step byte = (next, none)) :
    splitter.rows (byte :: rest) = next.rows rest := by
  rw [rows, h]

theorem rows_of_step_row (h : splitter.step byte = (next, some row)) :
    splitter.rows (byte :: rest) = row :: next.rows rest := by
  rw [rows, h]

/-- The line feeds that are passed in the bytes move the splitter on. -/
def passed (splitter : Splitter) (bytes : Bytes) : Splitter :=
  { splitter with line := splitter.line + bytes.count lineFeed }

theorem passed_passed (splitter : Splitter) (bytes more : Bytes) :
    (splitter.passed bytes).passed more = splitter.passed (bytes ++ more) := by
  simp only [passed, List.count_append, Nat.add_assoc]

theorem step_eq (splitter : Splitter) (byte : UInt8) :
    splitter.step byte = match splitter.mode with
      | .rowStart => if byte = lineFeed ∨ byte = carriageReturn then (splitter.passed [byte], none)
          else (splitter.passed [byte]).first byte
      | .fieldStart => (splitter.passed [byte]).first byte
      | .plain =>
        (splitter.passed [byte]).outside byte ((splitter.passed [byte]).push .plain byte)
      | .quoted =>
        if byte = quote then ({ splitter.passed [byte] with mode := .quoteSeen }, none)
        else ((splitter.passed [byte]).push .quoted byte, none)
      | .quoteSeen =>
        if byte = quote then ((splitter.passed [byte]).push .quoted byte, none)
        else (splitter.passed [byte]).outside byte ((splitter.passed [byte]).push .plain byte) := by
  have hpassed : splitter.passed [byte] =
      if byte = lineFeed then { splitter with line := splitter.line + 1 } else splitter := by
    by_cases h : byte = lineFeed <;> simp [passed, h]
  rw [step, ← hpassed]
  rfl

/-- Outside quotes, a comma ends the field. -/
theorem step_comma (h : splitter.mode ≠ .quoted) :
    splitter.step comma = (splitter.endField, none) := by
  rw [step_eq]
  cases hm : splitter.mode with
  | quoted => exact absurd hm h
  | _ => rfl

/-- Outside quotes, a line end ends the row, unless it ends an empty line. -/
theorem step_ending (h : splitter.mode ≠ .quoted) (hstart : splitter.mode ≠ .rowStart)
    (hb : byte = lineFeed ∨ byte = carriageReturn) :
    splitter.step byte = ((splitter.passed [byte]).nextRow, some splitter.row) := by
  rw [step_eq]
  cases hm : splitter.mode with
  | quoted => exact absurd hm h
  | rowStart => exact absurd hm hstart
  | _ => rcases hb with rfl | rfl <;> rfl

theorem step_empty (h : splitter.mode = .rowStart) (hb : byte = lineFeed ∨ byte = carriageReturn) :
    splitter.step byte = (splitter.passed [byte], none) := by
  rw [step_eq, h]
  exact if_pos hb

/-! ### Fields -/

/-- A byte that is part of a field wherever it stands in it. -/
structure Ordinary (byte : UInt8) : Prop where
  comma : byte ≠ comma
  lineFeed : byte ≠ lineFeed
  carriageReturn : byte ≠ carriageReturn

theorem Ordinary.passed_eq (H : Ordinary byte) (splitter : Splitter) :
    splitter.passed [byte] = splitter := by
  rw [passed, List.count_singleton]
  simp [H.lineFeed]

theorem Ordinary.outside_eq (H : Ordinary byte) (splitter next : Splitter) :
    splitter.outside byte next = (next, none) := by
  rw [outside, if_neg H.comma, if_neg (not_or.mpr ⟨H.lineFeed, H.carriageReturn⟩)]

theorem rows_plain (hm : splitter.mode = .plain) (h : ∀ byte ∈ bytes, Ordinary byte) :
    splitter.rows (bytes ++ rest) =
      { splitter with field := bytes.reverse ++ splitter.field }.rows rest := by
  induction bytes generalizing splitter with
  | nil => rfl
  | cons byte bytes ih =>
    have hbyte := h byte List.mem_cons_self
    have hstep : splitter.step byte = (splitter.push .plain byte, none) := by
      rw [step_eq, hm, hbyte.passed_eq]
      exact hbyte.outside_eq ..
    have hpush : (splitter.push .plain byte).mode = .plain := rfl
    rw [List.cons_append, rows_of_step hstep,
      ih hpush fun other hm => h other (List.mem_cons_of_mem _ hm), List.reverse_cons,
      List.append_assoc, List.singleton_append, push, hm]

theorem rows_quoted (hm : splitter.mode = .quoted) :
    splitter.rows (bytes.flatMap escape ++ quote :: rest) =
      { splitter.passed bytes with
        mode := .quoteSeen
        field := bytes.reverse ++ splitter.field }.rows rest := by
  induction bytes generalizing splitter with
  | nil =>
    have hstep : splitter.step quote = ({ splitter with mode := .quoteSeen }, none) := by
      rw [step_eq, hm]
      rfl
    exact rows_of_step hstep
  | cons byte bytes ih =>
    have hpush : ((splitter.passed [byte]).push .quoted byte).mode = .quoted := rfl
    have hbyte : splitter.rows (escape byte ++ (bytes.flatMap escape ++ quote :: rest)) =
        ((splitter.passed [byte]).push .quoted byte).rows
          (bytes.flatMap escape ++ quote :: rest) := by
      by_cases hquote : byte = quote
      · -- a quote is written twice, and the second one is the byte
        subst hquote
        have hfirst : splitter.step quote = ({ splitter with mode := .quoteSeen }, none) := by
          rw [step_eq, hm]
          rfl
        have hsecond : ({ splitter with mode := .quoteSeen } : Splitter).step quote =
            ((splitter.passed [quote]).push .quoted quote, none) := rfl
        rw [escape, if_pos rfl]
        exact (rows_of_step hfirst).trans (rows_of_step hsecond)
      · have hstep : splitter.step byte = ((splitter.passed [byte]).push .quoted byte, none) := by
          rw [step_eq, hm]
          exact if_neg hquote
        rw [escape, if_neg hquote]
        exact rows_of_step hstep
    rw [List.flatMap_cons, List.append_assoc, hbyte, ih hpush]
    congr 1
    simp only [passed, push, List.count_cons, List.count_nil, List.reverse_cons, List.append_assoc,
      List.singleton_append, Splitter.mk.injEq, true_and]
    omega

theorem count_escape (bytes : Bytes) :
    (bytes.flatMap escape).count lineFeed = bytes.count lineFeed := by
  induction bytes with
  | nil => rfl
  | cons byte bytes ih =>
    have hbyte : (escape byte).count lineFeed = [byte].count lineFeed := by
      by_cases h : byte = quote
      · subst h
        rfl
      · rw [escape, if_neg h]
    rw [List.flatMap_cons, List.count_append, hbyte, ih, ← List.count_append]
    rfl

/-- The splitter after a field at whose start it stood. -/
def past (splitter : Splitter) (field : Field) : Splitter :=
  { splitter.passed field.bytes with
    mode := if field.quoted then .quoteSeen else if field.text = [] then splitter.mode else .plain
    field := (encode field.text).reverse }

/-- The bytes of a field without quotes are no part of the structure of a line. -/
theorem ordinary_of_mem_encode {text : List Char}
    (h : ∀ char ∈ text, char ≠ ',' ∧ char ≠ '\n' ∧ char ≠ '\r') (hm : byte ∈ encode text) :
    Ordinary byte where
  comma := by
    rintro rfl
    exact (h ',' (mem_of_mem_encode hm (by decide))).1 rfl
  lineFeed := by
    rintro rfl
    exact (h '\n' (mem_of_mem_encode hm (by decide))).2.1 rfl
  carriageReturn := by
    rintro rfl
    exact (h '\r' (mem_of_mem_encode hm (by decide))).2.2 rfl

theorem encode_eq_nil {text : List Char} (h : encode text = []) : text = [] := by
  cases text with
  | nil => rfl
  | cons char text =>
    rw [encode, List.flatMap_cons, List.append_eq_nil_iff] at h
    exact absurd h.1 String.utf8EncodeChar_ne_nil

theorem rows_quoted_field (hm : splitter.mode = .rowStart ∨ splitter.mode = .fieldStart)
    (hempty : splitter.field = []) (text : List Char) :
    splitter.rows ((Field.mk text true).bytes ++ rest) =
      (splitter.past ⟨text, true⟩).rows rest := by
  have hopen : splitter.step quote = ({ splitter with mode := .quoted }, none) := by
    rw [step_eq]
    rcases hm with hm | hm <;> rw [hm] <;> rfl
  have hquoted : ({ splitter with mode := .quoted } : Splitter).mode = .quoted := rfl
  have hcount : (Field.mk text true).bytes.count lineFeed = (encode text).count lineFeed := by
    change (quote :: ((encode text).flatMap escape ++ [quote])).count lineFeed = _
    rw [List.count_cons, List.count_append, count_escape]
    rfl
  change splitter.rows (quote :: ((encode text).flatMap escape ++ [quote] ++ rest)) = _
  rw [rows_of_step hopen, List.append_assoc, List.singleton_append, rows_quoted hquoted]
  simp only [past, passed, hcount, hempty, List.append_nil, if_true]

theorem rows_plain_field {text : List Char}
    (hm : splitter.mode = .rowStart ∨ splitter.mode = .fieldStart) (hempty : splitter.field = [])
    (hquote : text.head? ≠ some '"')
    (htext : ∀ char ∈ text, char ≠ ',' ∧ char ≠ '\n' ∧ char ≠ '\r') :
    splitter.rows (encode text ++ rest) = (splitter.past ⟨text, false⟩).rows rest := by
  have hordinary : ∀ byte ∈ encode text, Ordinary byte := fun byte => ordinary_of_mem_encode htext
  have hpassed : splitter.passed (encode text) = splitter := by
    have hcount : (encode text).count lineFeed = 0 :=
      List.count_eq_zero.mpr fun hm => (hordinary _ hm).lineFeed rfl
    rw [passed, hcount, Nat.add_zero]
  change _ = ({ splitter.passed (encode text) with
    mode := if text = [] then splitter.mode else .plain
    field := (encode text).reverse } : Splitter).rows rest
  rw [hpassed]
  cases hencode : encode text with
  | nil =>
    obtain rfl := encode_eq_nil hencode
    rw [List.nil_append, if_pos rfl, List.reverse_nil, ← hempty]
  | cons byte bytes =>
    rw [hencode] at hordinary
    have hbyte := hordinary byte List.mem_cons_self
    have hfirst : byte ≠ quote := by
      rintro rfl
      have hhead : (encode text).head? = some quote := by rw [hencode, List.head?_cons]
      exact hquote (head?_encode hhead (by decide))
    have hstep : splitter.step byte = (splitter.push .plain byte, none) := by
      rw [step_eq, hbyte.passed_eq, first, if_neg hfirst, hbyte.outside_eq,
        if_neg (not_or.mpr ⟨hbyte.lineFeed, hbyte.carriageReturn⟩)]
      rcases hm with hm | hm <;> rw [hm]
    have hplain : (splitter.push .plain byte).mode = .plain := rfl
    have hne : text ≠ [] := by
      rintro rfl
      cases hencode
    have hbytes : ∀ other ∈ bytes, Ordinary other := fun other hm =>
      hordinary other (List.mem_cons_of_mem _ hm)
    rw [List.cons_append, rows_of_step hstep, rows_plain hplain hbytes, if_neg hne, push, hempty,
      List.reverse_cons]

theorem rows_field {field : Field} (H : field.Proper)
    (hm : splitter.mode = .rowStart ∨ splitter.mode = .fieldStart) (hempty : splitter.field = []) :
    splitter.rows (field.bytes ++ rest) = (splitter.past field).rows rest := by
  obtain ⟨text, quoted⟩ := field
  cases quoted with
  | true => exact rows_quoted_field hm hempty text
  | false =>
    obtain ⟨hquote, htext⟩ := H.resolve_left Bool.false_ne_true
    exact rows_plain_field hm hempty hquote htext

/-! ### Lines -/

theorem past_mode (splitter : Splitter) (field : Field) :
    (splitter.past field).mode = .quoteSeen ∨ (splitter.past field).mode = .plain ∨
      (splitter.past field).mode = splitter.mode := by
  rw [past]
  simp only
  split
  · exact .inl rfl
  · split
    · exact .inr (.inr rfl)
    · exact .inr (.inl rfl)

/-- The start of the next row does not depend on the fields of this one. -/
theorem nextRow_past (splitter : Splitter) (field : Field) (bytes : Bytes) :
    ((splitter.past field).passed bytes).nextRow =
      (splitter.passed (field.bytes ++ bytes)).nextRow := by
  simp only [nextRow, past, passed, List.count_append, Nat.add_assoc]

theorem row_past (splitter : Splitter) (field : Field) : (splitter.past field).row =
    ⟨splitter.start, splitter.fields.reverse ++ [encode field.text]⟩ := by
  simp [row, past, passed, endField]

/-- The rest of a line after a field ends the row. An empty first field is not all of a line. -/
theorem rows_further {fields : List Field} (H : ∀ field ∈ fields, field.Proper)
    (hm : splitter.mode ≠ .quoted) (hstart : splitter.mode = .rowStart → fields ≠ [])
    (hb : byte = lineFeed ∨ byte = carriageReturn) :
    splitter.rows (Line.further fields ++ byte :: rest) =
      ⟨splitter.start, splitter.row.fields ++ fields.map fun field => encode field.text⟩ ::
        (splitter.passed (Line.further fields ++ [byte])).nextRow.rows rest := by
  induction fields generalizing splitter with
  | nil =>
    have hrow : splitter.mode ≠ .rowStart := fun hm => hstart hm rfl
    rw [List.map_nil, List.append_nil]
    exact rows_of_step_row (step_ending hm hrow hb)
  | cons field fields ih =>
    have hfield : splitter.endField.rows (field.bytes ++ (Line.further fields ++ byte :: rest)) =
        (splitter.endField.past field).rows (Line.further fields ++ byte :: rest) :=
      rows_field (H field List.mem_cons_self) (.inr rfl) rfl
    have hmode := past_mode splitter.endField field
    have hquoted : (splitter.endField.past field).mode ≠ .quoted := by
      rcases hmode with h | h | h <;> rw [h] <;> exact Mode.noConfusion
    have hinner : (splitter.endField.past field).mode ≠ .rowStart := by
      rcases hmode with h | h | h <;> rw [h] <;> exact Mode.noConfusion
    have hmore := ih (fun other hm => H other (List.mem_cons_of_mem _ hm)) hquoted
      fun h => absurd h hinner
    have htext : Line.further (field :: fields) =
        comma :: (field.bytes ++ Line.further fields) := by
      rw [Line.further, List.flatMap_cons]
      rfl
    have hnext :
        (splitter.endField.passed (field.bytes ++ (Line.further fields ++ [byte]))).nextRow =
          (splitter.passed (Line.further (field :: fields) ++ [byte])).nextRow := by
      have hcomma : comma ≠ lineFeed := by decide
      rw [htext, List.cons_append, List.append_assoc, nextRow, nextRow, passed, passed,
        List.count_cons_of_ne hcomma]
      rfl
    rw [nextRow_past, hnext, row_past] at hmore
    rw [htext, List.cons_append, List.append_assoc, rows_of_step (step_comma hm), hfield, hmore,
      List.append_assoc]
    rfl

/-- Line ends at the start of a row are no rows. -/
theorem rows_lineEnds (hm : splitter.mode = .rowStart)
    (h : ∀ byte ∈ bytes, byte = lineFeed ∨ byte = carriageReturn) :
    splitter.rows (bytes ++ rest) = (splitter.passed bytes).rows rest := by
  induction bytes generalizing splitter with
  | nil => rfl
  | cons byte bytes ih =>
    have hstep := step_empty hm (h byte List.mem_cons_self)
    have hpassed : (splitter.passed [byte]).mode = .rowStart := hm
    rw [List.cons_append, rows_of_step hstep,
      ih hpassed fun other hm => h other (List.mem_cons_of_mem _ hm), passed_passed]
    rfl

theorem lineEnd_of_mem_ending {ending : Ending} (h : byte ∈ ending.bytes) :
    byte = lineFeed ∨ byte = carriageReturn := by
  cases ending with
  | lf => exact .inl (List.mem_singleton.mp h)
  | cr => exact .inr (List.mem_singleton.mp h)
  | crlf => exact (List.mem_pair.mp h).symm

theorem lineEnd_of_mem_empties {empties : List Ending}
    (h : byte ∈ empties.flatMap Ending.bytes) : byte = lineFeed ∨ byte = carriageReturn := by
  obtain ⟨ending, -, hbyte⟩ := List.mem_flatMap.mp h
  exact lineEnd_of_mem_ending hbyte

theorem rows_body {line : Line} (H : line.Proper) (hb : byte = lineFeed ∨ byte = carriageReturn)
    (start n : Nat) : ({ start, line := n } : Splitter).rows (line.body ++ byte :: rest) =
      ⟨start, line.contents⟩ ::
        (({ start, line := n } : Splitter).passed (line.body ++ [byte])).nextRow.rows rest := by
  obtain ⟨empties, fields, ending⟩ := line
  obtain ⟨hseveral, hproper⟩ := H
  cases fields with
  | nil => cases hseveral
  | cons field more =>
    have hmore : more ≠ [] := by
      rintro rfl
      simp at hseveral
    obtain ⟨hfield, hothers⟩ := List.forall_mem_cons.mp hproper
    have hmode : (({ start, line := n } : Splitter).past field).mode ≠ .quoted := by
      rcases past_mode { start, line := n } field with h | h | h <;> rw [h] <;>
        exact Mode.noConfusion
    have hbody : (Line.mk empties (field :: more) ending).body = field.bytes ++ Line.further more :=
      rfl
    simp only [hbody, List.append_assoc]
    rw [rows_field hfield (.inl rfl) rfl, rows_further hothers hmode (fun _ => hmore) hb,
      nextRow_past, row_past, List.append_assoc]
    rfl

/-- A line is one row. The splitter is at the start of the next one then, where what is left of the
line end is passed over. -/
theorem rows_line {line : Line} (H : line.Proper) (start n : Nat) :
    ({ start, line := n } : Splitter).rows (line.bytes ++ rest) =
      ⟨start, line.contents⟩ ::
        ({ start := n + line.head.count lineFeed
           line := n + line.bytes.count lineFeed } : Splitter).rows rest := by
  obtain ⟨empties, fields, ending⟩ := line
  have hrest : ∀ byte ∈ ending.rest, byte = lineFeed ∨ byte = carriageReturn := fun _ hm =>
    lineEnd_of_mem_ending (List.mem_cons_of_mem _ hm)
  have hfirst : ending.first = lineFeed ∨ ending.first = carriageReturn :=
    lineEnd_of_mem_ending List.mem_cons_self
  have htext : (Line.mk empties fields ending).bytes ++ rest =
      empties.flatMap Ending.bytes ++ ((Line.mk empties fields ending).body ++
        ending.first :: (ending.rest ++ rest)) := by
    simp only [Line.bytes, Line.head, List.append_assoc, List.cons_append, List.nil_append]
  have hempties : ({ start, line := n } : Splitter).passed (empties.flatMap Ending.bytes) =
      { start, line := n + (empties.flatMap Ending.bytes).count lineFeed } := rfl
  rw [htext, rows_lineEnds rfl fun _ => lineEnd_of_mem_empties, hempties, rows_body H hfirst,
    rows_lineEnds rfl hrest]
  congr 2
  simp only [nextRow, passed, Line.bytes, Line.head, List.count_append, Nat.add_assoc]

/-! ### Sheets -/

theorem numberAfter_concat (before : List Line) (line : Line) :
    Line.numberAfter (before ++ [line]) =
      1 + (before.flatMap Line.bytes).count lineFeed + line.head.count lineFeed := by
  rw [Line.numberAfter, List.dropLast_concat, List.getLast?_concat, List.count_append,
    Nat.add_assoc]
  rfl

/-- Lines that stand behind others are their rows, whatever comes next. -/
theorem rows_lines {lines : List Line} (H : ∀ line ∈ lines, line.Proper) (before : List Line) :
    ({ start := Line.numberAfter before
       line := 1 + (before.flatMap Line.bytes).count lineFeed } : Splitter).rows
      (lines.flatMap Line.bytes ++ rest) =
    Line.rowsAfter before lines ++
      ({ start := Line.numberAfter (before ++ lines)
         line := 1 + ((before ++ lines).flatMap Line.bytes).count lineFeed } : Splitter).rows
        rest := by
  induction lines generalizing before with
  | nil =>
    rw [List.append_nil]
    rfl
  | cons line lines ih =>
    have hmore := ih (fun other hm => H other (List.mem_cons_of_mem _ hm)) (before ++ [line])
    rw [numberAfter_concat, List.flatMap_append, List.flatMap_singleton, List.count_append,
      ← Nat.add_assoc, List.append_assoc, List.singleton_append] at hmore
    rw [List.flatMap_cons, List.append_assoc, rows_line (H line List.mem_cons_self), hmore]
    rfl

end Splitter

theorem dropMark_of_not_prefix {bytes : Bytes} (h : ¬mark <+: bytes) : dropMark bytes = bytes := by
  unfold dropMark
  split
  · next bytes =>
    exact absurd ⟨bytes, rfl⟩ h
  · rfl

/-- The rows of a file are its lines. -/
theorem Sheet.rows_bytes {sheet : Sheet} (H : sheet.Proper) :
    rows sheet.bytes = Line.rowsAfter [] (sheet.header :: sheet.lines) := by
  have htext : dropMark sheet.bytes = sheet.text := by
    rw [Sheet.bytes]
    cases hmarked : sheet.marked with
    | true => rfl
    | false => exact dropMark_of_not_prefix (H.unmarked.resolve_left (by rw [hmarked]; decide))
  have hlines : ∀ line ∈ sheet.header :: sheet.lines, line.Proper :=
    List.forall_mem_cons.mpr ⟨H.header, H.lines⟩
  rw [rows, htext, Sheet.text]
  refine (Splitter.rows_lines hlines []).trans ?_
  rw [← List.append_nil (sheet.empties.flatMap Ending.bytes),
    Splitter.rows_lineEnds rfl fun _ => Splitter.lineEnd_of_mem_empties]
  exact List.append_nil _

end Keystroke.Csv
