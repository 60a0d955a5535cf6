/-!
# Writing JSON

`Value` is what the library writes: an object keeps its fields in the order given. `Value.pretty`
puts each item and each field on a line of its own, two blanks deeper than its bracket; an empty
list or object stays on one line.

This stands for the writing half of the JSON package, which is assumed to lay values out like that,
to write integers in decimal and to escape quotes, backslashes and control characters only, those
without a letter of their own with four hexadecimal digits in lower case.
-/

namespace Keystroke.Json

/-- A JSON value to be written. -/
inductive Value where
  | null
  | bool (value : Bool)
  | number (value : Nat)
  | string (value : String)
  | list (items : List Value)
  | object (fields : List (String × Value))
  deriving Repr

namespace Value

/-- The hexadecimal digit for a number below 16. -/
def hexDigit (n : Nat) : Char := if n < 10 then Char.ofNat (48 + n) else Char.ofNat (87 + n)

/-- How a character stands in a string: quotes, backslashes and control characters are escaped. -/
def escape (char : Char) : List Char :=
  if char = '"' then ['\\', '"']
  else if char = '\\' then ['\\', '\\']
  else if char = '\x08' then ['\\', 'b']
  else if char = '\t' then ['\\', 't']
  else if char = '\n' then ['\\', 'n']
  else if char = '\x0c' then ['\\', 'f']
  else if char = '\r' then ['\\', 'r']
  else if char < ' ' then
    ['\\', 'u', '0', '0', hexDigit (char.toNat / 16), hexDigit (char.toNat % 16)]
  else [char]

/-- A string between its quotes. -/
def quote (text : String) : List Char := '"' :: text.toList.flatMap escape ++ ['"']

/-- A line break and the indentation of a depth. -/
def newline (depth : Nat) : List Char := '\n' :: List.replicate (2 * depth) ' '

mutual

/-- The text of a value whose brackets stand at a depth. -/
def render (depth : Nat) : Value → List Char
  | null => ['n', 'u', 'l', 'l']
  | bool true => ['t', 'r', 'u', 'e']
  | bool false => ['f', 'a', 'l', 's', 'e']
  | number value => Nat.toDigits 10 value
  | string value => quote value
  | list [] => ['[', ']']
  | list (item :: items) =>
    '[' :: newline (depth + 1) ++ render (depth + 1) item ++ renderItems depth items
  | object [] => ['{', '}']
  | object (field :: fields) =>
    '{' :: newline (depth + 1) ++ quote field.1 ++ [':', ' '] ++ render (depth + 1) field.2 ++
      renderFields depth fields

/-- The further items of a list and its closing bracket. -/
def renderItems (depth : Nat) : List Value → List Char
  | [] => newline depth ++ [']']
  | item :: items =>
    ',' :: newline (depth + 1) ++ render (depth + 1) item ++ renderItems depth items

/-- The further fields of an object and its closing bracket. -/
def renderFields (depth : Nat) : List (String × Value) → List Char
  | [] => newline depth ++ ['}']
  | field :: fields =>
    ',' :: newline (depth + 1) ++ quote field.1 ++ [':', ' '] ++ render (depth + 1) field.2 ++
      renderFields depth fields

end

/-- The text of a value over several lines. -/
def pretty (value : Value) : String := String.ofList (value.render 0)

end Value

end Keystroke.Json
