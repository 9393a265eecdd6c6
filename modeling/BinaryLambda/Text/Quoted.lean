import BinaryLambda.Text.Printable

set_option autoImplicit false

/-!
# Text: quoted form

A quoted text stands between two equal quotes on one line of printable
characters.  The quote is the apostrophe unless the text holds an apostrophe and
no double quote.  Inside, the quote and the backslash are escaped by a
backslash, tab, line feed and carriage return have letters of their own, and a
character without a printed form is written by its code point in hexadecimal,
with two, four or eight digits.
-/

namespace BinaryLambda.Text

/-- The lower case hexadecimal digits of `n`, at least `width` of them. -/
def hexadecimal (width n : Nat) : List Char :=
  let digits := Nat.toDigits 16 n
  List.replicate (width - digits.length) '0' ++ digits

/-- The quote that surrounds a text. -/
def quoteFor (cs : List Char) : Char :=
  if cs.contains '\'' && !cs.contains '"' then '"' else '\''

/-- One character as it stands between two quotes `q`. -/
def escaped (q c : Char) : List Char :=
  let n := c.toNat
  if c = q || c = '\\' then ['\\', c]
  else if c = '\t' then ['\\', 't']
  else if c = '\n' then ['\\', 'n']
  else if c = '\r' then ['\\', 'r']
  else if isPrintable c then [c]
  else if n ≤ 0xFF then '\\' :: 'x' :: hexadecimal 2 n
  else if n ≤ 0xFFFF then '\\' :: 'u' :: hexadecimal 4 n
  else '\\' :: 'U' :: hexadecimal 8 n

/-- The quoted form of a text. -/
def quoted (s : String) : String :=
  let cs := s.toList
  let q := quoteFor cs
  String.ofList (q :: cs.flatMap (escaped q) ++ [q])

end BinaryLambda.Text
