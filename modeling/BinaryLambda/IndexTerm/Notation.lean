import BinaryLambda.IndexTerm.Basic
import BinaryLambda.Text.Blank
import BinaryLambda.Text.Digit
import BinaryLambda.Text.Placed

set_option autoImplicit false

/-!
# Index terms: the written form

An index is written in decimal, counted from 1, an abstraction is `λ.` and its
body, and an application is its two sides between parentheses with a space in
between.  In reading, white space separates tokens and is otherwise ignored, and
an index may have leading zeros and digits of any script.
-/

namespace BinaryLambda.IndexTerm

/-- The characters of an index term, followed by `rest`. -/
def charsOnto : IndexTerm → List Char → List Char
  | bound n, rest => Nat.toDigits 10 (n + 1) ++ rest
  | lam b, rest => 'λ' :: '.' :: b.charsOnto rest
  | app f a, rest => '(' :: f.charsOnto (' ' :: a.charsOnto (')' :: rest))

/-- The written form of an index term. -/
def text (t : IndexTerm) : String := String.ofList (t.charsOnto [])

/-! ## Tokens -/

/-- A token of the written form. -/
inductive Mark where
  | numeral (digits : List Char)
  | lambda
  | leftParen
  | rightParen
  deriving DecidableEq, Repr, Inhabited

/-- The characters of a token. -/
def Mark.chars : Mark → List Char
  | numeral digits => digits
  | lambda => ['λ', '.']
  | leftParen => ['(']
  | rightParen => [')']

/-- Cuts the characters from `start` on into tokens, the longest first.  A
character that begins no token stops the cutting. -/
def cutFrom (start : Nat) (cs : List Char) : Except (Nat × Char) (List (Text.Placed Mark)) :=
  match cs with
  | [] => .ok []
  | 'λ' :: '.' :: rest => (cutFrom (start + 2) rest).map (⟨.lambda, start⟩ :: ·)
  | c :: rest =>
    if c = '(' then (cutFrom (start + 1) rest).map (⟨.leftParen, start⟩ :: ·)
    else if c = ')' then (cutFrom (start + 1) rest).map (⟨.rightParen, start⟩ :: ·)
    else if Text.isBlank c then cutFrom (start + 1) rest
    else if Text.isDigit c then
      let digits := c :: rest.takeWhile Text.isDigit
      have := (List.dropWhile_sublist Text.isDigit (l := rest)).length_le
      (cutFrom (start + digits.length) (rest.dropWhile Text.isDigit)).map
        (⟨.numeral digits, start⟩ :: ·)
    else .error (start, c)
termination_by cs.length
decreasing_by all_goals simp only [List.length_cons]; omega

/-! ## Reading -/

/-- Why a sequence of tokens is no index term. -/
inductive NotationMistake where
  /-- a term is missing -/
  | missingTerm
  /-- a token that begins no term -/
  | unexpected (m : Mark)
  /-- the index zero -/
  | zeroIndex (digits : List Char)
  /-- an application is not closed -/
  | unclosed
  /-- tokens follow a complete term -/
  | trailing
  deriving DecidableEq, Repr, Inhabited

/-- Reads the term at the front of a token sequence.  A mistake comes with the
tokens from the offending one on. -/
def readMarks (ms : List Mark) :
    Except (NotationMistake × List Mark)
      (IndexTerm × { rest : List Mark // rest.length < ms.length }) :=
  match ms with
  | [] => .error (.missingTerm, [])
  | .numeral digits :: rest =>
    match Text.digitsValue digits with
    | 0 => .error (.zeroIndex digits, .numeral digits :: rest)
    | n + 1 => .ok (bound n, ⟨rest, by simp⟩)
  | .lambda :: body =>
    match readMarks body with
    | .error e => .error e
    | .ok (b, ⟨rest, h⟩) => .ok (lam b, ⟨rest, by simp only [List.length_cons]; omega⟩)
  | .leftParen :: sides =>
    match readMarks sides with
    | .error e => .error e
    | .ok (f, ⟨rest, h⟩) =>
      match readMarks rest with
      | .error e => .error e
      | .ok (a, ⟨rest', h'⟩) =>
        match rest', h' with
        | .rightParen :: rest'', h'' =>
          .ok (app f a, ⟨rest'', by simp only [List.length_cons] at *; omega⟩)
        | rest'', _ => .error (.unclosed, rest'')
  | .rightParen :: rest => .error (.unexpected .rightParen, .rightParen :: rest)
termination_by ms.length
decreasing_by all_goals simp only [List.length_cons]; omega

/-- Reads a whole token sequence. -/
def ofMarks (ms : List Mark) : Except (NotationMistake × List Mark) IndexTerm :=
  match readMarks ms with
  | .error e => .error e
  | .ok (t, ⟨rest, _⟩) => if rest.isEmpty then .ok t else .error (.trailing, rest)

/-- Why a text is no index term. -/
inductive NotationFault where
  /-- a character that begins no token -/
  | stray (text : String) (position : Nat) (character : Char)
  /-- a mistake at the token that starts at `position` -/
  | mistake (text : String) (position : Nat) (kind : NotationMistake)
  deriving DecidableEq, Repr, Inhabited

/-- Reads the written form of an index term. -/
def ofText (s : String) : Except NotationFault IndexTerm :=
  match cutFrom 0 s.toList with
  | .error (position, c) => .error (.stray s position c)
  | .ok placed =>
    (ofMarks (placed.map (·.token))).mapError fun e =>
      .mistake s (Text.Placed.place placed s.length e.2.length) e.1

/-- Marks the character or the token that cannot be read. -/
def NotationFault.diagnostic : NotationFault → Diagnostic
  | stray s position c =>
    .marking .encoding "'\x7b\x7d' has unexpected '\x7b\x7d'" [s, c.toString] position (position + 1)
  | mistake s position .missingTerm =>
    .markingFrom .encoding "'\x7b\x7d' ended where a λ-term was expected" [s] position
  | mistake s position (.unexpected m) =>
    .marking .encoding "'\x7b\x7d' has unexpected '\x7b\x7d'" [s, String.ofList m.chars] position
      (position + m.chars.length)
  | mistake s position (.zeroIndex digits) =>
    .marking .encoding "'\x7b\x7d' has index \x7b\x7d, indices start at 1" [s, String.ofList digits]
      position (position + digits.length)
  | mistake s position .unclosed =>
    .marking .encoding "'\x7b\x7d' is missing ')'" [s] position (position + 1)
  | mistake s position .trailing =>
    .markingFrom .encoding "'\x7b\x7d' has trailing tokens after a complete λ-term" [s] position

end BinaryLambda.IndexTerm
