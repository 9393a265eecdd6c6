import Mathlib.Tactic.Common

set_option autoImplicit false

/-!
# Outcomes

When a computation that may fail, and a function after it or on its failure,
succeeds.
-/

namespace BinaryLambda

variable {ε ε' α β : Type}

/-- A function after a computation succeeds if the computation does. -/
theorem map_eq_ok_iff {f : α → β} {e : Except ε α} {b : β} :
    e.map f = .ok b ↔ ∃ a, e = .ok a ∧ f a = b := by
  cases e <;> simp [Except.map]

/-- A function after a computation fails as the computation does. -/
theorem map_eq_error_iff {f : α → β} {e : Except ε α} {x : ε} :
    e.map f = .error x ↔ e = .error x := by
  cases e <;> simp [Except.map]

/-- Two computations in a row succeed if both do. -/
theorem bind_eq_ok_iff {e : Except ε α} {f : α → Except ε β} {b : β} :
    e >>= f = .ok b ↔ ∃ a, e = .ok a ∧ f a = .ok b := by
  cases e <;> simp [bind, Except.bind]

/-- Another wording of the failure leaves a success alone. -/
theorem mapError_eq_ok_iff {f : ε → ε'} {e : Except ε α} {a : α} :
    e.mapError f = .ok a ↔ e = .ok a := by
  cases e <;> simp [Except.mapError]

/-- A failure in another wording is a failure. -/
theorem mapError_eq_error_iff {f : ε → ε'} {e : Except ε α} {x : ε'} :
    e.mapError f = .error x ↔ ∃ y, e = .error y ∧ f y = x := by
  cases e <;> simp [Except.mapError]

end BinaryLambda
