import BinaryLambda.Term.Basic
import BinaryLambda.Token

set_option autoImplicit false

/-!
# Terms: the canonical text

A variable is its name, an abstraction is `λ`, its binder, a dot and its body,
and an application is its two sides between parentheses.  Nothing else is
written, so a term has one sequence of tokens.
-/

namespace BinaryLambda.Term

/-- The tokens of a term, followed by `rest`. -/
def tokensOnto : Term → List Token → List Token
  | var x, rest => .letter x :: rest
  | lam p b, rest => .lambda :: .letter p :: .dot :: b.tokensOnto rest
  | app f a, rest => .leftParen :: f.tokensOnto (a.tokensOnto (.rightParen :: rest))

/-- The tokens of a term. -/
def tokens (t : Term) : List Token := t.tokensOnto []

/-- The canonical text of a term. -/
def text (t : Term) : String := Token.spell t.tokens

theorem tokensOnto_append (t : Term) (rest tail : List Token) :
    t.tokensOnto rest ++ tail = t.tokensOnto (rest ++ tail) := by
  induction t generalizing rest with
  | var x => rfl
  | lam p b ih => simp only [tokensOnto, List.cons_append, ih]
  | app f a ihf iha => simp only [tokensOnto, List.cons_append, ihf, iha]

theorem tokensOnto_eq (t : Term) (rest : List Token) : t.tokensOnto rest = t.tokens ++ rest := by
  simp only [tokens, tokensOnto_append, List.nil_append]

@[simp] theorem tokens_var (x : String) : (var x).tokens = [.letter x] := rfl

@[simp] theorem tokens_lam (p : String) (b : Term) :
    (lam p b).tokens = .lambda :: .letter p :: .dot :: b.tokens := rfl

@[simp] theorem tokens_app (f a : Term) :
    (app f a).tokens = .leftParen :: (f.tokens ++ a.tokens ++ [.rightParen]) := by
  rw [tokens, tokensOnto, tokensOnto_eq f, tokensOnto_eq a, List.append_assoc]

end BinaryLambda.Term
