import BinaryLambda.Term.Basic
import BinaryLambda.Token

set_option autoImplicit false

/-!
# Terms: reading the core language

The grammar is

    term ::= letter | λ letter . term | ( term term )

and its first token decides each production, so reading never goes back.
Reading a prefix of a token sequence returns the rest, and the rest is shorter;
a failure keeps the tokens from the offending one on and what was expected there.
-/

namespace BinaryLambda.Term

/-- What may stand at a place in a token sequence. -/
inductive Expected where
  | term
  | name
  | dot
  | rightParen
  /-- the end of the sequence -/
  | finish
  deriving DecidableEq, Repr, Inhabited

/-- The tokens from the first one that cannot stand where it does, and what was
expected there.  No tokens are left if the sequence ended too early. -/
structure Mismatch where
  expected : Expected
  rest : List Token
  deriving DecidableEq, Repr, Inhabited

/-- Reads the term at the front of a token sequence. -/
def readFront (ts : List Token) :
    Except Mismatch (Term × { rest : List Token // rest.length < ts.length }) :=
  match ts with
  | .letter x :: rest => .ok (var x, ⟨rest, by simp⟩)
  | .lambda :: .letter p :: .dot :: body =>
    match readFront body with
    | .error e => .error e
    | .ok (b, ⟨rest, h⟩) => .ok (lam p b, ⟨rest, by simp only [List.length_cons]; omega⟩)
  | .lambda :: .letter _ :: rest => .error ⟨.dot, rest⟩
  | .lambda :: rest => .error ⟨.name, rest⟩
  | .leftParen :: sides =>
    match readFront sides with
    | .error e => .error e
    | .ok (f, ⟨rest, h⟩) =>
      match readFront rest with
      | .error e => .error e
      | .ok (a, ⟨rest', h'⟩) =>
        match rest', h' with
        | .rightParen :: rest'', h'' =>
          .ok (app f a, ⟨rest'', by simp only [List.length_cons] at *; omega⟩)
        | rest'', _ => .error ⟨.rightParen, rest''⟩
  | rest => .error ⟨.term, rest⟩
termination_by ts.length
decreasing_by all_goals simp only [List.length_cons]; omega

/-- A token sequence that is no term, and where that shows. -/
structure GrammarFault where
  tokens : List Token
  mismatch : Mismatch
  deriving DecidableEq, Repr, Inhabited

/-- Reads a whole token sequence as a term. -/
def ofTokens (ts : List Token) : Except GrammarFault Term :=
  match readFront ts with
  | .error e => .error ⟨ts, e⟩
  | .ok (t, ⟨rest, _⟩) => if rest.isEmpty then .ok t else .error ⟨ts, ⟨.finish, rest⟩⟩

/-! ## What a failure says -/

/-- The index of the offending token. -/
def GrammarFault.position (e : GrammarFault) : Nat :=
  e.tokens.length - e.mismatch.rest.length

/-- The wording of what was expected. -/
def Expected.text : Expected → String
  | term => "a λ-term"
  | name => "a variable"
  | dot => "'.'"
  | rightParen => "')'"
  | finish => "the end"

/-- Says what was expected, and what stands there instead. -/
def GrammarFault.diagnostic (e : GrammarFault) : Diagnostic :=
  let text := Token.spell e.tokens
  match e.mismatch.expected, e.mismatch.rest with
  | .finish, _ =>
    .marking (.grammar e.position) "'\x7b\x7d' has trailing tokens after a complete λ-term" [text]
      e.position text.length
  | .term, [] => .atToken "'\x7b\x7d' ended where a λ-term was expected" [text] e.position
  | .term, t :: _ =>
    .atToken "'\x7b\x7d' has unexpected '\x7b\x7d' where a λ-term was expected" [text, t.text]
      e.position
  | what, [] =>
    .atToken "'\x7b\x7d' ended where \x7b\x7d was expected" [text, what.text] e.position
  | what, t :: _ =>
    .atToken "'\x7b\x7d' has unexpected '\x7b\x7d' where \x7b\x7d was expected"
      [text, t.text, what.text] e.position

/-- Why a text is no term of the core language. -/
inductive TextFault where
  | stray (e : StrayCharacter)
  | grammar (e : GrammarFault)
  deriving DecidableEq, Repr, Inhabited

/-- What the failure says. -/
def TextFault.diagnostic : TextFault → Diagnostic
  | stray e => e.diagnostic
  | grammar e => e.diagnostic

/-- Reads a text of the core language. -/
def ofText (s : String) : Except TextFault Term :=
  match Token.read s with
  | .error e => .error (.stray e)
  | .ok ts => (ofTokens ts).mapError .grammar

end BinaryLambda.Term
