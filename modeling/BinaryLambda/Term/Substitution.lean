import BinaryLambda.Term.Renaming

set_option autoImplicit false

/-!
# Terms: substitution that captures nothing

Every free occurrence of a name is replaced by a value.  A binder whose name is
free in the value is renamed first, but only if an occurrence beneath it is to be
replaced; the new name also avoids the replaced one.
-/

namespace BinaryLambda.Term

/-- Replaces the free occurrences of `x` by `value`. -/
def substitute (value : Term) (x : String) : Term → Except NoFreshName Term
  | var y => .ok (if y = x then value else var y)
  | lam p b =>
    if p = x then .ok (lam p b)
    else if value.occursFree p = false then (substitute value x b).map (lam p)
    else if b.occursFree x = false then .ok (lam p b)
    else
      match freshName p b (x :: value.freeNames) with
      | .error e => .error e
      | .ok q => (substitute value x (b.rename p q)).map (lam q)
  | app f a =>
    match substitute value x f with
    | .error e => .error e
    | .ok f' => (substitute value x a).map (app f')
termination_by t => t.size
decreasing_by all_goals simp only [size, size_rename]; omega

end BinaryLambda.Term
