import BinaryLambda.Term.Substitution

set_option autoImplicit false

/-!
# Terms: reduction

A redex is an application whose function side is an abstraction.  One step
contracts every outermost redex: at an application that is no redex it steps
into both sides.
-/

namespace BinaryLambda.Term

/-- Whether a term contains a redex. -/
def hasRedex : Term → Bool
  | var _ => false
  | lam _ b => b.hasRedex
  | app (lam _ _) _ => true
  | app f a => f.hasRedex || a.hasRedex

/-- Contracts the redex of an abstraction and an argument. -/
def contract (binder : String) (body argument : Term) : Except NoFreshName Term :=
  substitute argument binder body

/-- One step of reduction. -/
def step : Term → Except NoFreshName Term
  | var x => .ok (var x)
  | lam p b => b.step.map (lam p)
  | app (lam p b) a => contract p b a
  | app f a =>
    match f.step with
    | .error e => .error e
    | .ok f' => a.step.map (app f')

end BinaryLambda.Term
