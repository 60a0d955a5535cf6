/-!
# Key codes

The codes a keyboard can emit, with their usage numbers on the keyboard page and their names. A name
is unique (`KeyCode.ofName?_name`) and so is a usage (`KeyCode.ofUsage?_usage`). A person may also
write a short alias and need not mind the case of letters (`KeyCode.parse?`).
-/

namespace Keystroke

/-- A code of the keyboard usage page. -/
inductive KeyCode where
  | a | b | c | d | e | f | g | h | i | j | k | l | m | n | o | p | q | r | s | t | u | v | w | x
  | y | z | digit1 | digit2 | digit3 | digit4 | digit5 | digit6 | digit7 | digit8 | digit9
  | digit0 | enter | escape | backspace | tab | space | minus | equal | leftBracket
  | rightBracket | backslash | nonUsHash | semicolon | quote | grave | comma | dot | slash
  | capsLock | f1 | f2 | f3 | f4 | f5 | f6 | f7 | f8 | f9 | f10 | f11 | f12 | printScreen
  | scrollLock | pause | insert | home | pageUp | delete | endKey | pageDown | right | left
  | down | up | leftCtrl | leftShift | leftAlt | leftGui | rightCtrl | rightShift | rightAlt
  | rightGui
  deriving DecidableEq, Repr

namespace KeyCode

/-- Every code, in ascending order of usage. -/
def all : List KeyCode :=
  [.a, .b, .c, .d, .e, .f, .g, .h, .i, .j, .k, .l, .m, .n, .o, .p, .q, .r, .s, .t, .u, .v, .w,
   .x, .y, .z, .digit1, .digit2, .digit3, .digit4, .digit5, .digit6, .digit7, .digit8, .digit9,
   .digit0, .enter, .escape, .backspace, .tab, .space, .minus, .equal, .leftBracket,
   .rightBracket, .backslash, .nonUsHash, .semicolon, .quote, .grave, .comma, .dot, .slash,
   .capsLock, .f1, .f2, .f3, .f4, .f5, .f6, .f7, .f8, .f9, .f10, .f11, .f12, .printScreen,
   .scrollLock, .pause, .insert, .home, .pageUp, .delete, .endKey, .pageDown, .right, .left,
   .down, .up, .leftCtrl, .leftShift, .leftAlt, .leftGui, .rightCtrl, .rightShift, .rightAlt,
   .rightGui]

@[simp] theorem mem_all (code : KeyCode) : code ∈ all := by cases code <;> decide

/-- The usage number of a code. -/
def usage : KeyCode → UInt8
  | .a => 0x04
  | .b => 0x05
  | .c => 0x06
  | .d => 0x07
  | .e => 0x08
  | .f => 0x09
  | .g => 0x0A
  | .h => 0x0B
  | .i => 0x0C
  | .j => 0x0D
  | .k => 0x0E
  | .l => 0x0F
  | .m => 0x10
  | .n => 0x11
  | .o => 0x12
  | .p => 0x13
  | .q => 0x14
  | .r => 0x15
  | .s => 0x16
  | .t => 0x17
  | .u => 0x18
  | .v => 0x19
  | .w => 0x1A
  | .x => 0x1B
  | .y => 0x1C
  | .z => 0x1D
  | .digit1 => 0x1E
  | .digit2 => 0x1F
  | .digit3 => 0x20
  | .digit4 => 0x21
  | .digit5 => 0x22
  | .digit6 => 0x23
  | .digit7 => 0x24
  | .digit8 => 0x25
  | .digit9 => 0x26
  | .digit0 => 0x27
  | .enter => 0x28
  | .escape => 0x29
  | .backspace => 0x2A
  | .tab => 0x2B
  | .space => 0x2C
  | .minus => 0x2D
  | .equal => 0x2E
  | .leftBracket => 0x2F
  | .rightBracket => 0x30
  | .backslash => 0x31
  | .nonUsHash => 0x32
  | .semicolon => 0x33
  | .quote => 0x34
  | .grave => 0x35
  | .comma => 0x36
  | .dot => 0x37
  | .slash => 0x38
  | .capsLock => 0x39
  | .f1 => 0x3A
  | .f2 => 0x3B
  | .f3 => 0x3C
  | .f4 => 0x3D
  | .f5 => 0x3E
  | .f6 => 0x3F
  | .f7 => 0x40
  | .f8 => 0x41
  | .f9 => 0x42
  | .f10 => 0x43
  | .f11 => 0x44
  | .f12 => 0x45
  | .printScreen => 0x46
  | .scrollLock => 0x47
  | .pause => 0x48
  | .insert => 0x49
  | .home => 0x4A
  | .pageUp => 0x4B
  | .delete => 0x4C
  | .endKey => 0x4D
  | .pageDown => 0x4E
  | .right => 0x4F
  | .left => 0x50
  | .down => 0x51
  | .up => 0x52
  | .leftCtrl => 0xE0
  | .leftShift => 0xE1
  | .leftAlt => 0xE2
  | .leftGui => 0xE3
  | .rightCtrl => 0xE4
  | .rightShift => 0xE5
  | .rightAlt => 0xE6
  | .rightGui => 0xE7

/-- The name of a code, which documents and labels use. -/
def name : KeyCode → String
  | .a => "A"
  | .b => "B"
  | .c => "C"
  | .d => "D"
  | .e => "E"
  | .f => "F"
  | .g => "G"
  | .h => "H"
  | .i => "I"
  | .j => "J"
  | .k => "K"
  | .l => "L"
  | .m => "M"
  | .n => "N"
  | .o => "O"
  | .p => "P"
  | .q => "Q"
  | .r => "R"
  | .s => "S"
  | .t => "T"
  | .u => "U"
  | .v => "V"
  | .w => "W"
  | .x => "X"
  | .y => "Y"
  | .z => "Z"
  | .digit1 => "Kc1"
  | .digit2 => "Kc2"
  | .digit3 => "Kc3"
  | .digit4 => "Kc4"
  | .digit5 => "Kc5"
  | .digit6 => "Kc6"
  | .digit7 => "Kc7"
  | .digit8 => "Kc8"
  | .digit9 => "Kc9"
  | .digit0 => "Kc0"
  | .enter => "Enter"
  | .escape => "Escape"
  | .backspace => "Backspace"
  | .tab => "Tab"
  | .space => "Space"
  | .minus => "Minus"
  | .equal => "Equal"
  | .leftBracket => "LeftBracket"
  | .rightBracket => "RightBracket"
  | .backslash => "Backslash"
  | .nonUsHash => "NonUsHash"
  | .semicolon => "Semicolon"
  | .quote => "Quote"
  | .grave => "Grave"
  | .comma => "Comma"
  | .dot => "Dot"
  | .slash => "Slash"
  | .capsLock => "CapsLock"
  | .f1 => "F1"
  | .f2 => "F2"
  | .f3 => "F3"
  | .f4 => "F4"
  | .f5 => "F5"
  | .f6 => "F6"
  | .f7 => "F7"
  | .f8 => "F8"
  | .f9 => "F9"
  | .f10 => "F10"
  | .f11 => "F11"
  | .f12 => "F12"
  | .printScreen => "PrintScreen"
  | .scrollLock => "ScrollLock"
  | .pause => "Pause"
  | .insert => "Insert"
  | .home => "Home"
  | .pageUp => "PageUp"
  | .delete => "Delete"
  | .endKey => "End"
  | .pageDown => "PageDown"
  | .right => "Right"
  | .left => "Left"
  | .down => "Down"
  | .up => "Up"
  | .leftCtrl => "LeftCtrl"
  | .leftShift => "LeftShift"
  | .leftAlt => "LeftAlt"
  | .leftGui => "LeftGui"
  | .rightCtrl => "RightCtrl"
  | .rightShift => "RightShift"
  | .rightAlt => "RightAlt"
  | .rightGui => "RightGui"

/-- Other names a person may write for a code. -/
def aliases : KeyCode → List String
  | .digit1 => ["1"]
  | .digit2 => ["2"]
  | .digit3 => ["3"]
  | .digit4 => ["4"]
  | .digit5 => ["5"]
  | .digit6 => ["6"]
  | .digit7 => ["7"]
  | .digit8 => ["8"]
  | .digit9 => ["9"]
  | .digit0 => ["0"]
  | .enter => ["ENT", "RET"]
  | .escape => ["ESC"]
  | .backspace => ["BSPC"]
  | .space => ["SPC"]
  | .minus => ["-"]
  | .equal => ["="]
  | .leftBracket => ["["]
  | .rightBracket => ["]"]
  | .backslash => ["\\"]
  | .semicolon => [";"]
  | .quote => ["'"]
  | .grave => ["`"]
  | .comma => [","]
  | .dot => ["."]
  | .slash => ["/"]
  | .capsLock => ["CAPS"]
  | .insert => ["INS"]
  | .pageUp => ["PGUP"]
  | .delete => ["DEL"]
  | .pageDown => ["PGDN"]
  | .leftCtrl => ["LCTL"]
  | .leftShift => ["LSFT"]
  | .leftAlt => ["LALT"]
  | .leftGui => ["LGUI"]
  | .rightCtrl => ["RCTL"]
  | .rightShift => ["RSFT"]
  | .rightAlt => ["RALT"]
  | .rightGui => ["RGUI"]
  | _ => []

/-- The code with exactly this name. -/
def ofName? (name : String) : Option KeyCode := all.find? (·.name = name)

/-- The code with this usage number. -/
def ofUsage? (usage : UInt8) : Option KeyCode := all.find? (·.usage = usage)

@[simp] theorem ofName?_name (code : KeyCode) : ofName? code.name = some code := by
  cases code <;> decide +kernel

@[simp] theorem ofUsage?_usage (code : KeyCode) : ofUsage? code.usage = some code := by
  cases code <;> decide +kernel

theorem name_injective {code other : KeyCode} (h : code.name = other.name) : code = other := by
  have hc := ofName?_name code
  rw [h, ofName?_name other] at hc
  exact (Option.some.inj hc).symm

theorem usage_injective {code other : KeyCode} (h : code.usage = other.usage) :
    code = other := by
  have hc := ofUsage?_usage code
  rw [h, ofUsage?_usage other] at hc
  exact (Option.some.inj hc).symm

/-- Two words are the same up to the case of ASCII letters. -/
def sameLetters (word other : String) : Bool := word.toLower = other.toLower

/-- The code a person means by a name or an alias, in either case. -/
def parse? (word : String) : Option KeyCode :=
  all.find? fun code => (code.name :: code.aliases).any (sameLetters word)

/-- Modifiers are the codes from the left control key on. -/
def isModifier (code : KeyCode) : Bool := leftCtrl.usage ≤ code.usage

/-- The bit of a modifier in the modifier byte of a report. -/
def modifierBit? (code : KeyCode) : Option UInt8 :=
  if code.isModifier then some (1 <<< (code.usage - leftCtrl.usage)) else none

/-- The code whose usage is `n` above that of `first`. -/
private def shift (first : KeyCode) (n : Nat) : Option KeyCode :=
  ofUsage? (first.usage + n.toUInt8)

/-- The unshifted key that types a character on a US board. -/
def ofChar? (char : Char) : Option KeyCode :=
  let char := char.toLower
  if 'a' ≤ char ∧ char ≤ 'z' then shift .a (char.toNat - 'a'.toNat)
  else if '1' ≤ char ∧ char ≤ '9' then shift .digit1 (char.toNat - '1'.toNat)
  else match char with
    | '0' => some .digit0
    | '\n' => some .enter
    | '\t' => some .tab
    | ' ' => some .space
    | '-' => some .minus
    | '=' => some .equal
    | '[' => some .leftBracket
    | ']' => some .rightBracket
    | '\\' => some .backslash
    | ';' => some .semicolon
    | '\x27' => some .quote
    | '\x60' => some .grave
    | ',' => some .comma
    | '.' => some .dot
    | '/' => some .slash
    | _ => none

end KeyCode

end Keystroke
