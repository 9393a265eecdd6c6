import BinaryLambda.Proofs.IndexTerm.Standardization
import BinaryLambda.Proofs.Term.Simulation

set_option autoImplicit false

/-!
# Terms: normal forms

A run that never lacks a fresh name finds the normal form of every term that has
one, whatever contractions lead to it, and the normal form it finds is the only
one (`interpret_normalizes`).
-/

namespace BinaryLambda.Term

open Environment IndexTerm

/-- **The runs normalize, and normal forms are unique.**  Suppose that no run from a
term fails.  If contractions at any places and in any order lead from its index
term to one without redex, then all runs with a high enough cap end without redex
at that index term.  Whenever a run ends without redex, contractions lead from the
index term of the first term to that of the last, and to no other without redex. -/
theorem interpret_normalizes {t : Term} {context : List String} (hfree : t.freeNames ⊆ context)
    (hrun : ∀ cap, ∃ r, t.interpret cap = .ok r) :
    ∃ T, t.indexed context = .ok T ∧
      (∀ N, Reduces T N → N.Normal → ∃ cap₀, ∀ cap, cap₀ ≤ cap →
        ∃ r, t.interpret cap = .ok r ∧ r.hasRedex = false ∧ r.indexed context = .ok N) ∧
      (∀ cap r, t.interpret cap = .ok r → r.hasRedex = false →
        ∃ N, r.indexed context = .ok N ∧ Reduces T N ∧
          ∀ N', Reduces T N' → N'.Normal → N' = N) := by
  refine ⟨_, indexed_eq_ok hfree, ?_, ?_⟩
  · intro N hN hnormal
    obtain ⟨k, hk⟩ := exists_iterate_contractOutermost_eq hN hnormal
    refine ⟨k, ?_⟩
    intro cap hcap
    obtain ⟨r, hr⟩ := hrun cap
    obtain ⟨hsub, _, htranslate, hstop, hleast⟩ := reduction_spec hfree hr
    generalize (t.reduction cap).reducer.steps = j at htranslate hstop hleast
    have hjk : j ≤ k := hleast (.inr (by rw [hk]; exact hnormal))
    -- A run that stopped before the cap has no redex left, so the steps up to `k` change nothing.
    have hreached : contractOutermost^[j] (t.translate (ofContext context)) = N := by
      rcases hstop with hj | hj
      · have hkj : j = k := by omega
        rw [hkj, hk]
      · rw [← hk, ← Nat.sub_add_cancel hjk, Function.iterate_add_apply,
          iterate_contractOutermost_of_normal _ hj]
    rw [hreached] at htranslate
    have hredex : r.hasRedex = false := by
      rw [hasRedex_eq_false_iff_translate r context, htranslate]
      exact hnormal
    have hindexed : r.indexed context = .ok N := by
      rw [indexed_eq_ok hsub, htranslate]
    exact ⟨r, hr, hredex, hindexed⟩
  · intro cap r hr hredex
    obtain ⟨hsub, _, htranslate, _⟩ := reduction_spec hfree hr
    have hreduces :
        Reduces (t.translate (ofContext context)) (r.translate (ofContext context)) := by
      rw [htranslate]
      exact reduces_iterate_contractOutermost _ _
    have hnormal : (r.translate (ofContext context)).Normal :=
      (hasRedex_eq_false_iff_translate r context).mp hredex
    refine ⟨_, indexed_eq_ok hsub, hreduces, ?_⟩
    intro N' hN' hnormal'
    exact hreduces.normal_unique hN' hnormal hnormal'

/-- The argument of `λz.y` reduces to itself for ever, and is thrown away. -/
theorem interpret_normalizes_discarded :
    ∃ cap₀, ∀ cap, cap₀ ≤ cap →
      ∃ r, (app (app (lam "x" (lam "z" (var "x"))) (var "y"))
          (app (lam "x" (app (var "x") (var "x"))) (lam "x" (app (var "x") (var "x"))))).interpret
            cap = .ok r ∧ r.hasRedex = false ∧ r.indexed ["y"] = .ok (.bound 0) := by
  have hfree : (app (app (lam "x" (lam "z" (var "x"))) (var "y"))
      (app (lam "x" (app (var "x") (var "x"))) (lam "x" (app (var "x") (var "x"))))).freeNames ⊆
        ["y"] := by decide
  have hsteps : Steps 2 (app (app (lam "x" (lam "z" (var "x"))) (var "y"))
      (app (lam "x" (app (var "x") (var "x"))) (lam "x" (app (var "x") (var "x"))))) (var "y") :=
    .succ rfl (by cbv) (.succ rfl (by cbv) (.zero _))
  obtain ⟨T, hT, hnormalizes, _⟩ := interpret_normalizes hfree (hsteps.exists_interpret rfl)
  cases hT
  exact hnormalizes _ (.tail (.tail .refl (.function _ (.redex _ _))) (.redex _ _))
    (normal_bound 0)

end BinaryLambda.Term
