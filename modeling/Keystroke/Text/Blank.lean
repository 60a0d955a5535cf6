/-!
# Blanks around a word

The characters with the Unicode property White_Space, and the removal of such characters at both
ends of a text.
-/

namespace Keystroke.Text

/-- The character is white space by the Unicode property of that name. -/
def isBlank (char : Char) : Bool :=
  let n := char.toNat
  (0x09 ≤ n && n ≤ 0x0D) || n = 0x20 || n = 0x85 || n = 0xA0 || n = 0x1680 ||
    (0x2000 ≤ n && n ≤ 0x200A) || n = 0x2028 || n = 0x2029 || n = 0x202F || n = 0x205F ||
    n = 0x3000

/-- The text without the blanks at both of its ends. -/
def trim (text : List Char) : List Char :=
  ((text.dropWhile isBlank).reverse.dropWhile isBlank).reverse

end Keystroke.Text
