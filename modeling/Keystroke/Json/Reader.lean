import Keystroke.Json.Fault
import Keystroke.Json.Numeral

/-!
# Reading JSON

A `Reader` takes what it needs from the front of a text. Readers are directed by the type that is
asked for: there is no document tree in between, and a value of another kind is refused where it
starts, once its own first token is well-formed (`wrongKind`). Values that nobody asked for are
skipped (`skip`).

This stands for the reading half of the JSON package. What is assumed of it:

* a document is read in one pass, the first failure decides, and only blanks may follow its value;
* literals, numbers and strings have the standard grammar, and so does what is skipped, at any
  depth;
* an integer is a number without sign, fraction and exponent that fits its type;
* a number beyond the range of double precision is malformed;
* half of a surrogate pair is malformed in a string that is read, but not in one that is skipped.
-/

namespace Keystroke.Json

/-- Takes a value from the front of a text. -/
abbrev Reader := StateT (List Char) (Except Fault)

variable {α σ : Type}

/-- Refuses a well-formed text. -/
def refuse (mismatch : Mismatch) : Reader α := throw (.content mismatch)

/-- The blanks between tokens. -/
def isBlank (char : Char) : Bool := char = ' ' || char = '\n' || char = '\t' || char = '\r'

/-- The next character that is not blank, which stays in the text. -/
def peek : Reader Char := do
  let text := (← get).dropWhile isBlank
  set text
  match text with
  | [] => throw .endOfText
  | char :: _ => pure char

/-- Drops one character. -/
def advance : Reader Unit := modify List.tail

/-- Takes the next character that is not blank. -/
def next : Reader Char := do
  let char ← peek
  advance
  pure char

/-- Takes a token of one character. -/
def token (char : Char) : Reader Unit := do
  if (← next) = char then pure () else throw .malformed

/-- Takes the given characters, without blanks between them. -/
def word : List Char → Reader Unit
  | [] => pure ()
  | char :: rest => do
    match ← get with
    | [] => throw .endOfText
    | first :: text =>
      if first = char then do
        set text
        word rest
      else throw .malformed

/-! ## Numerals -/

/-- Takes the digits at the front, if any. -/
def digits : Reader (List Char) := do
  let text ← get
  set (text.dropWhile Char.isDigit)
  pure (text.takeWhile Char.isDigit)

/-- Takes at least one digit; `atEnd` is the fault if the text ends before that. -/
def someDigits (atEnd : Fault) : Reader (List Char) := do
  match ← digits with
  | [] => throw (if (← get).isEmpty then atEnd else .malformed)
  | found => pure found

/-- Takes the whole part of a numeral, which starts with 0 only if it is 0. -/
def wholePart (atEnd : Fault) : Reader (List Char) := do
  match ← someDigits atEnd with
  | '0' :: _ :: _ => throw .malformed
  | found => pure found

/-- Takes the fraction of a numeral, if it has one. -/
def fractionPart (atEnd : Fault) : Reader (List Char) := do
  match ← get with
  | '.' :: text => do
    set text
    someDigits atEnd
  | _ => pure []

/-- Takes the sign of an exponent: true if it is negative. -/
def exponentSign : Reader Bool := do
  match ← get with
  | '-' :: text => do
    set text
    pure true
  | '+' :: text => do
    set text
    pure false
  | _ => pure false

/-- Takes the exponent of a numeral, if it has one. -/
def exponentPart (atEnd : Fault) : Reader (Option Int) := do
  match ← get with
  | 'e' :: text | 'E' :: text => do
    set text
    let negative ← exponentSign
    let found ← someDigits atEnd
    let size : Int := digitsValue found
    pure (some (if negative then -size else size))
  | _ => pure none

/-- Takes a numeral; `atEnd` is the fault if the text ends within it. -/
def numeral (atEnd : Fault) : Reader Numeral := do
  let negative ← do
    match ← get with
    | '-' :: text => do
      set text
      pure true
    | _ => pure false
  let whole ← wholePart atEnd
  let fraction ← fractionPart atEnd
  let exponent ← exponentPart atEnd
  pure { negative, whole, fraction, exponent }

/-- Takes a number; only a plain natural one has a value here. -/
def number : Reader (Option Nat) := do
  let n ← numeral .endOfText
  if n.isInfinite then throw .malformed else pure n.natural?

/-! ## Strings -/

/-- The character that a backslash and this one stand for. -/
def escape? : Char → Option Char
  | '"' => some '"'
  | '\\' => some '\\'
  | '/' => some '/'
  | 'b' => some '\x08'
  | 'f' => some '\x0c'
  | 'n' => some '\n'
  | 'r' => some '\r'
  | 't' => some '\t'
  | _ => none

/-- The value of a hexadecimal digit. -/
def hexDigit? (char : Char) : Option Nat :=
  if char.isDigit then some (char.toNat - '0'.toNat)
  else if 'a' ≤ char ∧ char ≤ 'f' then some (char.toNat - 'a'.toNat + 10)
  else if 'A' ≤ char ∧ char ≤ 'F' then some (char.toNat - 'A'.toNat + 10)
  else none

/-- The code unit that four hexadecimal digits write. -/
def codeUnit? (a b c d : Char) : Option Nat := do
  pure (16 * (16 * (16 * (← hexDigit? a) + (← hexDigit? b)) + (← hexDigit? c)) + (← hexDigit? d))

/-- The first half of a surrogate pair. -/
def isHighSurrogate (codeUnit : Nat) : Bool := 0xD800 ≤ codeUnit && codeUnit ≤ 0xDBFF

/-- The second half of a surrogate pair. -/
def isLowSurrogate (codeUnit : Nat) : Bool := 0xDC00 ≤ codeUnit && codeUnit ≤ 0xDFFF

/-- The character that a surrogate pair writes. -/
def ofSurrogates (high low : Nat) : Char :=
  Char.ofNat (0x10000 + 0x400 * (high - 0xD800) + (low - 0xDC00))

/-- The fault of a code unit with fewer than four characters left: with four bytes left it has bad
digits, else the text ends within it. -/
def brokenUnit (text : List Char) : Fault :=
  if 4 ≤ (String.ofList text).utf8ByteSize then .malformed else .endOfText

/-- The fault where the second half of a surrogate pair is missing. -/
def brokenPair : List Char → Fault
  | [] => .endOfText
  | '\\' :: [] => .endOfText
  | '\\' :: 'u' :: text => brokenUnit text
  | _ => .malformed

/-- The characters of a string up to its closing quote, and the text after that. -/
def unescape : List Char → Except Fault (List Char × List Char)
  | [] => .error .endOfText
  | char :: text =>
    if char = '"' then .ok ([], text)
    else if char = '\\' then
      match text with
      | [] => .error .endOfText
      | 'u' :: text =>
        match text with
        | a :: b :: c :: d :: text =>
          match codeUnit? a b c d with
          | none => .error .malformed
          | some high =>
            if isLowSurrogate high then .error .malformed
            else if isHighSurrogate high then
              match text with
              | '\\' :: 'u' :: e :: f :: g :: h :: text =>
                match codeUnit? e f g h with
                | none => .error .malformed
                | some low =>
                  if isLowSurrogate low then do
                    let (chars, rest) ← unescape text
                    pure (ofSurrogates high low :: chars, rest)
                  else .error .malformed
              | text => .error (brokenPair text)
            else do
              let (chars, rest) ← unescape text
              pure (Char.ofNat high :: chars, rest)
        | text => .error (brokenUnit text)
      | letter :: text =>
        match escape? letter with
        | none => .error .malformed
        | some char => do
          let (chars, rest) ← unescape text
          pure (char :: chars, rest)
    else if char < ' ' then .error .malformed
    else do
      let (chars, rest) ← unescape text
      pure (char :: chars, rest)

/-- The text after a string that is not read; the halves of surrogate pairs are not matched. -/
def skipChars : List Char → Except Fault (List Char)
  | [] => .error .endOfText
  | char :: text =>
    if char = '"' then .ok text
    else if char = '\\' then
      match text with
      | [] => .error .endOfText
      | 'u' :: text =>
        match text with
        | a :: b :: c :: d :: text =>
          match codeUnit? a b c d with
          | none => .error .malformed
          | some _ => skipChars text
        | text => .error (brokenUnit text)
      | letter :: text =>
        match escape? letter with
        | none => .error .malformed
        | some _ => skipChars text
    else if char < ' ' then .error .malformed
    else skipChars text

/-- Takes the rest of a string, its opening quote being taken. -/
def stringRest : Reader String := do
  let (chars, text) ← unescape (← get)
  set text
  pure (String.ofList chars)

/-- Skips the rest of a string, its opening quote being taken. -/
def skipString : Reader Unit := do
  set (← skipChars (← get))

/-! ## Values of another kind -/

/-- Refuses a value of a kind that was not asked for. Its first token has to be well-formed. -/
def wrongKind : Reader α := do
  let char ← peek
  if char = '-' || char.isDigit then do
    let _ ← number
    refuse .unfit
  else do
    match char with
    | 'n' => word ['n', 'u', 'l', 'l']
    | 't' => word ['t', 'r', 'u', 'e']
    | 'f' => word ['f', 'a', 'l', 's', 'e']
    | '"' => do
      advance
      let _ ← stringRest
    | '[' | '{' => pure ()
    | _ => throw .malformed
    refuse .unfit

/-! ## Lists between brackets -/

/-- Items with commas between them up to the closing bracket. Every round takes a comma, so the text
itself bounds their number. -/
def items (close : Char) (item : σ → Reader σ) : List Char → σ → Reader σ
  | [], _ => throw .endOfText
  | _ :: bound, state => do
    let state ← item state
    let char ← next
    if char = ',' then items close item bound state
    else if char = close then pure state
    else throw .malformed

/-- What stands between brackets, the opening one being taken: nothing, or items. -/
def bracketed (close : Char) (item : σ → Reader σ) (state : σ) : Reader σ := do
  if (← peek) = close then do
    advance
    pure state
  else items close item (← get) state

/-- A value that nobody asked for. Every level of nesting takes a bracket, so the text itself bounds
the depth. -/
def skipValue : List Char → Reader Unit
  | [] => throw .endOfText
  | _ :: bound => do
    let char ← peek
    if char = '-' || char.isDigit then do
      let _ ← numeral .malformed
    else match char with
      | 'n' => word ['n', 'u', 'l', 'l']
      | 't' => word ['t', 'r', 'u', 'e']
      | 'f' => word ['f', 'a', 'l', 's', 'e']
      | '"' => do
        advance
        skipString
      | '[' => do
        advance
        bracketed ']' (fun _ => skipValue bound) ()
      | '{' => do
        advance
        bracketed '}' (fun _ => do
          token '"'
          skipString
          token ':'
          skipValue bound) ()
      | _ => throw .malformed

/-- Skips a value that nobody asked for. The outermost one is in no bracket, hence the bound has one
character more than the text. -/
def skip : Reader Unit := do
  skipValue (' ' :: (← get))

/-! ## Simple values -/

/-- A natural number below a bound. -/
def natural (bound : Nat) : Reader Nat := do
  let char ← peek
  if char = '-' || char.isDigit then
    match ← number with
    | some n => if n < bound then pure n else refuse .unfit
    | none => refuse .unfit
  else wrongKind

def uint8 : Reader UInt8 := do
  pure (← natural UInt8.size).toUInt8

def uint32 : Reader UInt32 := do
  pure (← natural UInt32.size).toUInt32

/-- An index, which is a number of eight bits first. -/
def index (kind : IndexKind) : Reader (Fin kind.limit) := do
  match kind.check (← natural UInt8.size) with
  | .ok index => pure index
  | .error error => refuse (.indexOutOfRange error)

/-- A truth value. -/
def bool : Reader Bool := do
  match ← peek with
  | 't' => do
    word ['t', 'r', 'u', 'e']
    pure true
  | 'f' => do
    word ['f', 'a', 'l', 's', 'e']
    pure false
  | _ => wrongKind

/-- The value `null`. -/
def null : Reader Unit := do
  match ← peek with
  | 'n' => word ['n', 'u', 'l', 'l']
  | _ => wrongKind

/-- A value or `null`. -/
def optional (value : Reader α) : Reader (Option α) := do
  if (← peek) = 'n' then do
    word ['n', 'u', 'l', 'l']
    pure none
  else do
    pure (some (← value))

/-- A string. -/
def string : Reader String := do
  if (← peek) = '"' then do
    advance
    stringRest
  else wrongKind

/-- A list of any length. -/
def list (item : Reader α) : Reader (List α) := do
  if (← peek) = '[' then do
    advance
    let found ← bracketed ']' (fun found => do pure ((← item) :: found)) []
    pure found.reverse
  else wrongKind

/-- Reads a whole text: one value, and nothing but blanks around it. -/
def read (value : Reader α) (text : List Char) : Except Fault α := do
  let (found, rest) ← value text
  if rest.all isBlank then pure found else throw .malformed

end Keystroke.Json
