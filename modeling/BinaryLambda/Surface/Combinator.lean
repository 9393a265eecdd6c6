import BinaryLambda.Failure
import BinaryLambda.Term.Basic

set_option autoImplicit false

/-!
# Surface syntax: named combinators

Each combinator has a name, a definition in the surface syntax, in which other
combinators may be named, and the term that the definition stands for.
-/

namespace BinaryLambda

/-- The combinators that the surface syntax knows by name. -/
inductive Combinator where
  | sum
  | conjunction
  | falsity
  | first
  | identity
  | zeroTest
  | product
  | negation
  | disjunction
  | pair
  | power
  | predecessor
  | second
  | difference
  | successor
  | truth
  deriving DecidableEq, Repr, Inhabited

/-- A name that no combinator has. -/
structure UnknownCombinator where
  name : String
  deriving DecidableEq, Repr, Inhabited

/-- Names what is missing. -/
def UnknownCombinator.failure (e : UnknownCombinator) : Failure :=
  .other "KeyError" (Text.quoted e.name)

namespace Combinator

/-- The combinators in the order of their names. -/
def all : List Combinator :=
  [sum, conjunction, falsity, first, identity, zeroTest, product, negation, disjunction, pair,
    power, predecessor, second, difference, successor, truth]

/-- The name of a combinator. -/
def name : Combinator → String
  | sum => "add"
  | conjunction => "and"
  | falsity => "false"
  | first => "first"
  | identity => "id"
  | zeroTest => "iszero"
  | product => "mult"
  | negation => "not"
  | disjunction => "or"
  | pair => "pair"
  | power => "pow"
  | predecessor => "pred"
  | second => "second"
  | difference => "sub"
  | successor => "succ"
  | truth => "true"

/-- The definition of a combinator in the surface syntax. -/
def definition : Combinator → String
  | sum => "λm.λn.λf.λx.m f (n f x)"
  | conjunction => "λa.λb.a b a"
  | falsity => "λx.λy.y"
  | first => "λp.p true"
  | identity => "λx.x"
  | zeroTest => "λn.n (λx.false) true"
  | product => "λm.λn.λf.m (n f)"
  | negation => "λa.a false true"
  | disjunction => "λa.λb.a a b"
  | pair => "λa.λb.λf.f a b"
  | power => "λm.λn.n m"
  | predecessor => "λn.λf.λx.n (λg.λh.h (g f)) (λu.x) (λu.u)"
  | second => "λp.p false"
  | difference => "λm.λn.n pred m"
  | successor => "λn.λf.λx.f (n f x)"
  | truth => "λx.λy.x"

open Term

/-- The first of two. -/
def truthTerm : Term := lam "x" (lam "y" (var "x"))

/-- The second of two. -/
def falsityTerm : Term := lam "x" (lam "y" (var "y"))

/-- One application fewer. -/
def predecessorTerm : Term :=
  lam "n" (lam "f" (lam "x"
    (app
      (app
        (app (var "n") (lam "g" (lam "h" (app (var "h") (app (var "g") (var "f"))))))
        (lam "u" (var "x")))
      (lam "u" (var "u")))))

/-- The term of a combinator. -/
def term : Combinator → Term
  | sum =>
    lam "m" (lam "n" (lam "f" (lam "x"
      (app (app (var "m") (var "f")) (app (app (var "n") (var "f")) (var "x"))))))
  | conjunction => lam "a" (lam "b" (app (app (var "a") (var "b")) (var "a")))
  | falsity => falsityTerm
  | first => lam "p" (app (var "p") truthTerm)
  | identity => lam "x" (var "x")
  | zeroTest => lam "n" (app (app (var "n") (lam "x" falsityTerm)) truthTerm)
  | product => lam "m" (lam "n" (lam "f" (app (var "m") (app (var "n") (var "f")))))
  | negation => lam "a" (app (app (var "a") falsityTerm) truthTerm)
  | disjunction => lam "a" (lam "b" (app (app (var "a") (var "a")) (var "b")))
  | pair => lam "a" (lam "b" (lam "f" (app (app (var "f") (var "a")) (var "b"))))
  | power => lam "m" (lam "n" (app (var "n") (var "m")))
  | predecessor => predecessorTerm
  | second => lam "p" (app (var "p") falsityTerm)
  | difference => lam "m" (lam "n" (app (app (var "n") predecessorTerm) (var "m")))
  | successor =>
    lam "n" (lam "f" (lam "x"
      (app (var "f") (app (app (var "n") (var "f")) (var "x")))))
  | truth => truthTerm

/-- The combinator of a name. -/
def ofName? (s : String) : Option Combinator := all.find? (·.name == s)

/-- The term of the combinator of a name. -/
def termOfName (s : String) : Except UnknownCombinator Term :=
  match ofName? s with
  | some c => .ok c.term
  | none => .error ⟨s⟩

@[simp] theorem ofName?_name (c : Combinator) : ofName? c.name = some c := by
  cases c <;> decide

end Combinator

end BinaryLambda
