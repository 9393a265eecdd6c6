import BinaryLambda.Diagnostic
import BinaryLambda.Value

set_option autoImplicit false

/-!
# Tokens of the core language

The core language is written with parentheses, `λ`, the dot and the lower case
letters `a` to `z`, one token a character, so the index of a token is the index
of its character.  White space is no part of it.  A letter token may carry any
name; only the letters of the alphabet come from text.
-/

namespace BinaryLambda

/-- A token of the core language. -/
inductive Token where
  | leftParen
  | rightParen
  | lambda
  | dot
  | letter (name : String)
  deriving DecidableEq, Repr, Inhabited

/-- The letters, in the order in which names are tried. -/
def alphabet : List Char :=
  ['a', 'b', 'c', 'd', 'e', 'f', 'g', 'h', 'i', 'j', 'k', 'l', 'm', 'n', 'o', 'p', 'q', 'r', 's',
    't', 'u', 'v', 'w', 'x', 'y', 'z']

/-- A character that a text may not hold, and where it stands. -/
structure StrayCharacter where
  text : String
  position : Nat
  character : Char
  deriving DecidableEq, Repr, Inhabited

/-- Points at the stray character. -/
def StrayCharacter.diagnostic (e : StrayCharacter) : Diagnostic :=
  .marking .alphabet "'\x7b\x7d' contains invalid character '\x7b\x7d'"
    [e.text, e.character.toString] e.position (e.position + 1)

namespace Token

/-- The text of a token. -/
def text : Token → String
  | leftParen => "("
  | rightParen => ")"
  | lambda => "λ"
  | dot => "."
  | letter name => name

/-- The token that a character stands for. -/
def ofChar? (c : Char) : Option Token :=
  if c = '(' then some leftParen
  else if c = ')' then some rightParen
  else if c = 'λ' then some lambda
  else if c = '.' then some dot
  else if 'a' ≤ c ∧ c ≤ 'z' then some (letter c.toString)
  else none

/-- Reads the characters from `position` on; a character that is no token stops
the reading. -/
def readFrom (position : Nat) : List Char → Except (Nat × Char) (List Token)
  | [] => .ok []
  | c :: cs =>
    match ofChar? c with
    | none => .error (position, c)
    | some t => (readFrom (position + 1) cs).map (t :: ·)

/-- The tokens of a text. -/
def read (s : String) : Except StrayCharacter (List Token) :=
  (readFrom 0 s.toList).mapError fun e => ⟨s, e.1, e.2⟩

/-- The text that tokens spell. -/
def spell (ts : List Token) : String := String.join (ts.map text)

@[simp] theorem spell_nil : spell [] = "" := rfl

end Token

/-! ## Sequences that may hold something else -/

/-- An item of a sequence that is meant to hold tokens. -/
inductive Piece where
  | token (t : Token)
  /-- a token of no kind -/
  | kindless
  /-- a value that is no token -/
  | foreign (v : Value)
  deriving Repr, Inhabited

/-- An item that is no token: its literal form and its index. -/
structure NoToken where
  literal : String
  position : Nat
  deriving DecidableEq, Repr, Inhabited

/-- Names the item; there is no text to underline. -/
def NoToken.diagnostic (e : NoToken) : Diagnostic :=
  { Diagnostic.atToken "'\x7b\x7d' is not a token" [e.literal] e.position with
    underlined := false }

namespace Piece

/-- The tokens of a sequence that holds nothing else; `position` is the index of
its first item. -/
def tokensFrom (position : Nat) : List Piece → Except NoToken (List Token)
  | [] => .ok []
  | token t :: ps => (tokensFrom (position + 1) ps).map (t :: ·)
  | kindless :: _ => .error ⟨"Token()", position⟩
  | foreign v :: _ => .error ⟨v.literal, position⟩

/-- The tokens of a sequence that holds nothing else. -/
def tokens (ps : List Piece) : Except NoToken (List Token) := tokensFrom 0 ps

end Piece

end BinaryLambda
