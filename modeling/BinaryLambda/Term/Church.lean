import BinaryLambda.Decimal.Integer
import BinaryLambda.Diagnostic
import BinaryLambda.Term.Basic
import BinaryLambda.Value

set_option autoImplicit false

/-!
# Terms: Church numerals

The numeral of `n` is `λf.λx.(f(f…x))` with `n` copies of `f`.  A term is taken
for a numeral whatever the names of its two outer binders, as long as they
differ.
-/

namespace BinaryLambda

namespace Term

/-- The variable `x` under `n` applications of the variable `f`. -/
def applications (f x : String) (n : Nat) : Term :=
  Nat.repeat (app (var f)) n (var x)

/-- The Church numeral of `n`. -/
def church (n : Nat) : Term := lam "f" (lam "x" (applications "f" "x" n))

/-- How often the variable `f` is applied to the variable `x`, if the term is
nothing but that. -/
def countApplications (f x : String) : Term → Option Nat
  | var y => if y = x then some 0 else none
  | app (var g) a => if g = f then (countApplications f x a).map (· + 1) else none
  | _ => none

/-- The number of which a term is the Church numeral. -/
def churchValue? : Term → Option Nat
  | lam f (lam x b) => if f = x then none else countApplications f x b
  | _ => none

theorem countApplications_applications (f x : String) (n : Nat) :
    countApplications f x (applications f x n) = some n := by
  unfold applications
  induction n with
  | zero => simp [Nat.repeat, countApplications]
  | succ n ih => simp [Nat.repeat, countApplications, ih]

end Term

/-- A value that is no natural number. -/
structure NoNatural where
  shown : String
  deriving DecidableEq, Repr, Inhabited

/-- Shows the value. -/
def NoNatural.diagnostic (e : NoNatural) : Diagnostic :=
  { Diagnostic.markingFrom .general "expected natural number, got '\x7b\x7d'" [e.shown] 0 with
    internal := true }

/-- The integer that a value is or writes. -/
def Value.integer? : Value → Option Int
  | int i => some i
  | text s => Decimal.readInteger? s
  | _ => none

/-- The natural number that a value is or writes.  A number below zero is shown
as that number, however it was written; any other value is shown as it is. -/
def Value.natural (v : Value) : Except NoNatural Nat :=
  match v.integer? with
  | some (.ofNat n) => .ok n
  | some i => .error ⟨toString i⟩
  | none => .error ⟨v.plain⟩

end BinaryLambda
