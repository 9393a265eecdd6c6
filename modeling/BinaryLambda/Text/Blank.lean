set_option autoImplicit false

/-!
# Text: white space

The white space that separates tokens and surrounds lines is the whole Unicode
class, not only the four ASCII characters that `Char.isWhitespace` knows.  The
four ASCII separators U+001C to U+001F belong to it.  Every cut that this
library makes at white space goes through `isBlank`, so a text is split the same
way wherever it is read.
-/

namespace BinaryLambda.Text

/-- White space: the ASCII controls U+0009 to U+000D, the separators U+001C to
U+001F, the space, and the blank characters outside ASCII. -/
def isBlank (c : Char) : Bool :=
  let n := c.toNat
  (9 ≤ n && n ≤ 13) || (28 ≤ n && n ≤ 32) || n == 0x85 || n == 0xA0 || n == 0x1680 ||
    (0x2000 ≤ n && n ≤ 0x200A) || n == 0x2028 || n == 0x2029 || n == 0x202F ||
    n == 0x205F || n == 0x3000

/-- Drops the blanks at both ends. -/
def strip (cs : List Char) : List Char :=
  ((cs.dropWhile isBlank).reverse.dropWhile isBlank).reverse

end BinaryLambda.Text
