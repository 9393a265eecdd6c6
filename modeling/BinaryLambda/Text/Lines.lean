set_option autoImplicit false

/-!
# Text: lines

A line ends at a line feed, a carriage return, the two together, a vertical tab,
a form feed, one of the separators U+001C to U+001E, U+0085, U+2028 or U+2029.
An end of line closes the line before it; what follows the last one is a line
only if it is not empty.
-/

namespace BinaryLambda.Text

/-- A character that ends a line. -/
def endsLine (c : Char) : Bool :=
  let n := c.toNat
  (10 ≤ n && n ≤ 13) || (28 ≤ n && n ≤ 30) || n == 0x85 || n == 0x2028 || n == 0x2029

/-- The lines of `cs`, given the characters already read of the current line in
reverse, or nothing if no line has begun. -/
def linesFrom : Option (List Char) → List Char → List (List Char)
  | none, [] => []
  | some line, [] => [line.reverse]
  | line, '\r' :: '\n' :: cs => (line.getD []).reverse :: linesFrom none cs
  | line, c :: cs =>
    if endsLine c then (line.getD []).reverse :: linesFrom none cs
    else linesFrom (some (c :: line.getD [])) cs

/-- The lines of a text, without the characters that end them. -/
def lines (s : String) : List String :=
  (linesFrom none s.toList).map String.ofList

end BinaryLambda.Text
