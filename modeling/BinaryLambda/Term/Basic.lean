set_option autoImplicit false

/-!
# Terms

The terms of the untyped lambda calculus with named variables.  A name is any
string; parsing yields single letters.  Equality is equality of trees, names
included.
-/

namespace BinaryLambda

/-- A lambda term. -/
inductive Term where
  | var (name : String)
  | lam (binder : String) (body : Term)
  | app (function argument : Term)
  deriving DecidableEq, Repr, Inhabited

namespace Term

/-- The number of nodes of a term. -/
def size : Term → Nat
  | var _ => 1
  | lam _ b => b.size + 1
  | app f a => f.size + a.size + 1

/-- The number of abstractions in a term. -/
def abstractions : Term → Nat
  | var _ => 0
  | lam _ b => b.abstractions + 1
  | app f a => f.abstractions + a.abstractions

/-! ## Free names -/

/-- The names of the free occurrences of variables, from left to right. -/
def freeNames : Term → List String
  | var x => [x]
  | lam p b => b.freeNames.filter (· ≠ p)
  | app f a => f.freeNames ++ a.freeNames

/-- Whether `x` has a free occurrence. -/
def occursFree (x : String) : Term → Bool
  | var y => x == y
  | lam p b => p != x && b.occursFree x
  | app f a => f.occursFree x || a.occursFree x

/-- Whether a binder named `binder` has a free occurrence of `x` beneath it, so
that `x` renamed to `binder` would be captured. -/
def bindsFree (binder x : String) : Term → Bool
  | var _ => false
  | lam p b =>
    if p = x then false
    else if p = binder then b.occursFree x
    else b.bindsFree binder x
  | app f a => f.bindsFree binder x || a.bindsFree binder x

@[simp] theorem occursFree_var (x y : String) : (var y).occursFree x = (x == y) := rfl

@[simp] theorem occursFree_lam (x p : String) (b : Term) :
    (lam p b).occursFree x = (p != x && b.occursFree x) := rfl

@[simp] theorem occursFree_app (x : String) (f a : Term) :
    (app f a).occursFree x = (f.occursFree x || a.occursFree x) := rfl

/-- Every name once, in increasing order. -/
def sortedNames (names : List String) : List String :=
  names.eraseDups.mergeSort (fun a b => decide (a ≤ b))

end Term

end BinaryLambda
