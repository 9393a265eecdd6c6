set_option autoImplicit false

/-!
# Text: parts of a text between two signed bounds

A bound counts characters from the start of the text; a negative bound counts
back from its end.  A bound that points outside the text is moved to the nearer
end, and a part whose end lies before its start is empty.
-/

namespace BinaryLambda.Text

/-- Where a signed bound falls in a text of `length` characters. -/
def bound (length : Nat) (i : Int) : Nat :=
  if i < 0 then (length + i).toNat else min i.toNat length

theorem bound_natCast {length i : Nat} (h : i ≤ length) : bound length i = i := by
  unfold bound; split <;> omega

/-- The characters before bound `stop`. -/
def upTo (cs : List Char) (stop : Int) : List Char :=
  cs.take (bound cs.length stop)

/-- The characters from bound `start` on. -/
def onwards (cs : List Char) (start : Int) : List Char :=
  cs.drop (bound cs.length start)

/-- The characters from bound `start` up to bound `stop`. -/
def between (cs : List Char) (start stop : Int) : List Char :=
  (cs.take (bound cs.length stop)).drop (bound cs.length start)

/-- Cutting at two bounds in order loses nothing. -/
theorem upTo_between_onwards {cs : List Char} {start stop : Nat} (h₁ : start ≤ stop)
    (h₂ : stop ≤ cs.length) :
    upTo cs start ++ between cs start stop ++ onwards cs stop = cs := by
  have h := List.take_append_drop start (cs.take stop)
  rw [List.take_take, Nat.min_eq_left h₁] at h
  simp only [upTo, between, onwards, bound_natCast h₂, bound_natCast (Nat.le_trans h₁ h₂)]
  rw [h, List.take_append_drop]

end BinaryLambda.Text
