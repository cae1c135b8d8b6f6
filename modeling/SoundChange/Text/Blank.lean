/-!
# Blank characters

`isBlank` is the Unicode property White_Space, and `trim` removes the blanks on both ends of a
text. A zero-width space (U+200B) and a byte order mark (U+FEFF) are not blank.
-/

set_option autoImplicit false

namespace SoundChange.Text

/-- Whether `c` has the Unicode property White_Space. -/
def isBlank (c : Char) : Bool :=
  let n := c.toNat
  (9 ≤ n && n ≤ 13) || n == 0x20 || n == 0x85 || n == 0xA0 || n == 0x1680 ||
    (0x2000 ≤ n && n ≤ 0x200A) || n == 0x2028 || n == 0x2029 || n == 0x202F || n == 0x205F ||
    n == 0x3000

/-- Drops the blanks at the end of a text. -/
def trimRight (s : List Char) : List Char :=
  (s.reverse.dropWhile isBlank).reverse

/-- Drops the blanks at both ends of a text. -/
def trim (s : List Char) : List Char :=
  trimRight (s.dropWhile isBlank)

end SoundChange.Text
