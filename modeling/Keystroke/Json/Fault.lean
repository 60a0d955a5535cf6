import Keystroke.Board

/-!
# Why a JSON text is refused

A text is read in one pass and the first fault decides. Either the text is no JSON up to there, or
it is and says something else than was asked for.
-/

namespace Keystroke.Json

/-- What a well-formed text says wrongly. -/
inductive Mismatch where
  | missingField (name : String)
  | duplicateField (name : String)
  | unknownVariant (name : String) (expected : List String)
  | chordLength (count : Nat)
  | indexOutOfRange (error : IndexError)
  /-- A value of another kind, of another length or out of the range of its field. -/
  | unfit
  deriving DecidableEq, Repr

/-- Why a text is refused. -/
inductive Fault where
  /-- The text ends too early. -/
  | endOfText
  /-- The text is no JSON here. -/
  | malformed
  /-- The text is well-formed so far and says something else. -/
  | content (mismatch : Mismatch)
  deriving DecidableEq, Repr

/-- A word in the quotes of a message. -/
def quoted (word : String) : String := "`" ++ word ++ "`"

/-- The choices in the message about an unknown one. -/
def choices (expected : List String) : String :=
  match expected.map quoted with
  | [first, second] => "expected " ++ first ++ " or " ++ second
  | all => "expected one of " ++ ", ".intercalate all

/-- The wording of a mismatch, as far as it has one. -/
def Mismatch.message? : Mismatch → Option String
  | missingField name => some ("missing field " ++ quoted name)
  | duplicateField name => some ("duplicate field " ++ quoted name)
  | unknownVariant name expected =>
    some ("unknown variant " ++ quoted name ++ ", " ++ choices expected)
  | chordLength count =>
    some ("Keymap Validation Error: a chord needs 2 to 3 codes, got " ++ toString count)
  | indexOutOfRange error => some error.message
  | unfit => none

/-- The wording of a fault, as far as it has one. -/
def Fault.message? : Fault → Option String
  | content mismatch => mismatch.message?
  | _ => none

def Fault.message (fault : Fault) : String :=
  match fault with
  | endOfText => "unexpected end of text"
  | malformed => "malformed text"
  | content mismatch => mismatch.message?.getD "unexpected value"

end Keystroke.Json
