set_option autoImplicit false

/-!
# Text: tokens and where they start

A lexer keeps each token with the index of its first character.  A parser that
reads the tokens alone names a place by the number of tokens that are left; the
place is then the start of the next token, or the end of the text.
-/

namespace BinaryLambda.Text

/-- A token and the index of its first character. -/
structure Placed (α : Type) where
  token : α
  start : Nat
  deriving DecidableEq, Repr, Inhabited

/-- The index of the first character of the token with `left` tokens from it on,
or the length of the text if none is left. -/
def Placed.place {α : Type} (tokens : List (Placed α)) (length left : Nat) : Nat :=
  match tokens[tokens.length - left]? with
  | some t => t.start
  | none => length

end BinaryLambda.Text
