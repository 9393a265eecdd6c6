import BinaryLambda.Text.Blank
import BinaryLambda.Text.Placed
import BinaryLambda.Token

set_option autoImplicit false

/-!
# Surface syntax: tokens

The surface syntax has two marks for abstraction, words of lower case letters and
numerals of ASCII digits; words and numerals are cut as long as possible.  White
space separates tokens and is otherwise dropped.
-/

namespace BinaryLambda.Surface

/-- A token of the surface syntax. -/
inductive Token where
  /-- written `λ` or as a backslash -/
  | lambda (mark : Char)
  | dot
  | leftParen
  | rightParen
  | word (letters : List Char)
  | numeral (digits : List Char)
  deriving DecidableEq, Repr, Inhabited

/-- The characters of a token. -/
def Token.chars : Token → List Char
  | lambda mark => [mark]
  | dot => ['.']
  | leftParen => ['(']
  | rightParen => [')']
  | word letters => letters
  | numeral digits => digits

/-- The text of a token. -/
def Token.text (t : Token) : String := String.ofList t.chars

/-- A letter of a word. -/
def isLetter (c : Char) : Bool := 'a' ≤ c && c ≤ 'z'

/-- A digit of a numeral. -/
def isNumeralDigit (c : Char) : Bool := '0' ≤ c && c ≤ '9'

/-- Cuts the characters from `start` on into tokens.  A character that begins no
token stops the cutting. -/
def cutFrom (start : Nat) (cs : List Char) : Except (Nat × Char) (List (Text.Placed Token)) :=
  match cs with
  | [] => .ok []
  | c :: rest =>
    if c = 'λ' ∨ c = '\\' then (cutFrom (start + 1) rest).map (⟨.lambda c, start⟩ :: ·)
    else if c = '.' then (cutFrom (start + 1) rest).map (⟨.dot, start⟩ :: ·)
    else if c = '(' then (cutFrom (start + 1) rest).map (⟨.leftParen, start⟩ :: ·)
    else if c = ')' then (cutFrom (start + 1) rest).map (⟨.rightParen, start⟩ :: ·)
    else if isLetter c then
      let letters := c :: rest.takeWhile isLetter
      have := (List.dropWhile_sublist isLetter (l := rest)).length_le
      (cutFrom (start + letters.length) (rest.dropWhile isLetter)).map (⟨.word letters, start⟩ :: ·)
    else if isNumeralDigit c then
      let digits := c :: rest.takeWhile isNumeralDigit
      have := (List.dropWhile_sublist isNumeralDigit (l := rest)).length_le
      (cutFrom (start + digits.length) (rest.dropWhile isNumeralDigit)).map
        (⟨.numeral digits, start⟩ :: ·)
    else if Text.isBlank c then cutFrom (start + 1) rest
    else .error (start, c)
termination_by cs.length
decreasing_by all_goals simp only [List.length_cons]; omega

/-- The tokens of a text, with their places. -/
def lex (s : String) : Except StrayCharacter (List (Text.Placed Token)) :=
  (cutFrom 0 s.toList).mapError fun e => ⟨s, e.1, e.2⟩

end BinaryLambda.Surface
