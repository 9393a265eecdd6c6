import BinaryLambda.Program
import BinaryLambda.Proofs.Term.Reading

set_option autoImplicit false

/-!
# Programs: evaluation in parts

The text that an evaluation gives is a program again, and going on with it is the
same as not having stopped (`evaluate_evaluate`).
-/

namespace BinaryLambda.Program

open Term

/-! ## Reading -/

/-- A program is read as a term of letters. -/
theorem lettered_of_read {program : String} {t : Term} (h : read program = .ok t) : t.Lettered :=
  (ofText_eq_ok_iff.mp (mapError_eq_ok_iff.mp h)).2

/-- The text of a term of letters is a program of that term. -/
theorem read_text {t : Term} (h : t.Lettered) : read t.text = .ok t :=
  mapError_eq_ok_iff.mpr h.ofText_text

theorem indexed_text {t : Term} (h : t.Lettered) (registry : Option (List String)) :
    indexed t.text registry = (t.indexedWith registry).mapError .unbound := by
  rw [indexed, read_text h]
  rfl

/-! ## Evaluation of a program whose term is known -/

theorem evaluate_of_error {program : String} {e : Fault} (h : read program = .error e)
    (cap : Nat) : evaluate program cap = .error e := by
  rw [evaluate, h]
  rfl

theorem evaluate_of_read {program : String} {t : Term} (h : read program = .ok t) (cap : Nat) :
    evaluate program cap = ((t.interpret cap).map text).mapError .freshName := by
  rw [evaluate, h]
  change ((t.interpret cap).mapError Fault.freshName >>= fun u => pure u.text) = _
  cases t.interpret cap <;> rfl

theorem evaluate_eq_ok_iff {program s : String} {cap : Nat} :
    evaluate program cap = .ok s ↔
      ∃ t r, read program = .ok t ∧ t.interpret cap = .ok r ∧ r.text = s := by
  cases hread : read program with
  | error e => simp [evaluate_of_error hread]
  | ok t => simp [evaluate_of_read hread, mapError_eq_ok_iff, map_eq_ok_iff]

/-! ## Going on with an evaluation -/

/-- **Evaluation may be cut in two.**  Evaluating what an evaluation within `m` gives
within `n` has the outcome of an evaluation within `m + n`: the same text, or the
same failure, that of the program's text or that of the step that finds no fresh
name.  Whatever an evaluation gives is the text of a term of letters and is read as
that term, and if it has no redex, then every higher cap gives the same text. -/
theorem evaluate_evaluate (program : String) (m n : Nat) :
    (evaluate program m >>= fun s => evaluate s n) = evaluate program (m + n) ∧
      ∀ s, evaluate program m = .ok s →
        ∃ t, Term.ofText s = .ok t ∧ t.Lettered ∧
          (t.hasRedex = false → ∀ k, m ≤ k → evaluate program k = .ok s) := by
  constructor
  · cases hread : read program with
    | error e =>
        rw [evaluate_of_error hread, evaluate_of_error hread]
        rfl
    | ok t =>
        have hadd := interpret_add t m n
        rw [evaluate_of_read hread, evaluate_of_read hread, hadd]
        cases hrun : t.interpret m with
        | error e => rfl
        | ok u =>
            have hletters : u.Lettered := (lettered_of_read hread).interpret hrun
            exact evaluate_of_read (read_text hletters) n
  · intro s hs
    obtain ⟨t, r, hread, hrun, rfl⟩ := evaluate_eq_ok_iff.mp hs
    have hletters : r.Lettered := (lettered_of_read hread).interpret hrun
    refine ⟨r, hletters.ofText_text, hletters, ?_⟩
    intro hnormal k hk
    obtain ⟨d, rfl⟩ := Nat.exists_eq_add_of_le hk
    have hrun' : t.interpret (m + d) = .ok r := by
      rw [interpret_add, hrun]
      exact interpret_of_normal hnormal d
    exact evaluate_eq_ok_iff.mpr ⟨t, r, hread, hrun', rfl⟩

/-- The first step renames the binder `y` to `z`, and the second one binds another `z`. -/
theorem evaluate_evaluate_renamed :
    evaluate "((λx.λy.(xy)y)z)" 1 = .ok "(λz.(yz)z)" ∧
      evaluate "((λx.λy.(xy)y)z)" 2 = .ok "(yz)" ∧
      ∀ k, 2 ≤ k → evaluate "((λx.λy.(xy)y)z)" k = .ok "(yz)" := by
  have hfirst : evaluate "((λx.λy.(xy)y)z)" 1 = .ok "(λz.(yz)z)" := by
    have hread : read "((λx.λy.(xy)y)z)" =
        .ok (app (app (lam "x" (lam "y" (app (var "x") (var "y")))) (var "y")) (var "z")) := by cbv
    have hrun : (app (app (lam "x" (lam "y" (app (var "x") (var "y")))) (var "y"))
        (var "z")).interpret 1 = .ok (app (lam "z" (app (var "y") (var "z"))) (var "z")) := by cbv
    rw [evaluate_of_read hread, hrun]
    rfl
  have hsecond : evaluate "((λx.λy.(xy)y)z)" 2 = .ok "(yz)" := by
    have hread : read "(λz.(yz)z)" =
        .ok (app (lam "z" (app (var "y") (var "z"))) (var "z")) := by cbv
    have hrun : (app (lam "z" (app (var "y") (var "z"))) (var "z")).interpret 1 =
        .ok (app (var "y") (var "z")) := by cbv
    rw [← (evaluate_evaluate "((λx.λy.(xy)y)z)" 1 1).1, hfirst]
    change evaluate "(λz.(yz)z)" 1 = .ok "(yz)"
    rw [evaluate_of_read hread, hrun]
    rfl
  obtain ⟨t, ht, _, hnormal⟩ := (evaluate_evaluate "((λx.λy.(xy)y)z)" 2 0).2 "(yz)" hsecond
  have hyz : t = app (var "y") (var "z") := by
    have hread : Term.ofText "(yz)" = .ok (app (var "y") (var "z")) := by cbv
    rw [hread] at ht
    exact (Except.ok.inj ht).symm
  exact ⟨hfirst, hsecond, hnormal (by rw [hyz]; rfl)⟩

end BinaryLambda.Program
