import BinaryLambda.Program
import BinaryLambda.Proofs.IndexTerm.Code
import BinaryLambda.Proofs.Term.Alpha
import BinaryLambda.Proofs.Term.Registry

set_option autoImplicit false

/-!
# Programs: what their codes tell apart

The bits of a closed program depend on its term only up to the names of binders,
and they determine it as far (`registered_eq_iff_alphaEq`).
-/

namespace BinaryLambda.Program

open Environment Term

/-! ## Answers of a program whose term is known -/

theorem read_eq_ok_iff {program : String} {t : Term} :
    read program = .ok t ↔ Term.ofText program = .ok t :=
  mapError_eq_ok_iff

/-- A closed program has a code, that of its term outside every binder. -/
theorem bits_of_closed {program : String} {t : Term} (h : Term.ofText program = .ok t)
    (hclosed : t.freeNames = []) :
    bits program none = .ok (t.translate (ofContext [])).bits := by
  have hsub : t.freeNames ⊆ [] := by rw [hclosed]; exact List.Subset.refl []
  rw [bits, indexed, read_eq_ok_iff.mpr h]
  simp only [bind, Except.bind, indexedWith, indexed_eq_ok hsub, Except.mapError, Except.map]

/-! ## Equal codes -/

/-- **Index terms tell apart exactly the terms that are not alpha-equivalent.**  A
registry that has the free names of two terms stays as it is when they are
indexed, and their index terms are equal if and only if the terms are
alpha-equivalent.  So closed programs have a code, and the codes of two of them
are equal if and only if their terms are alpha-equivalent. -/
theorem registered_eq_iff_alphaEq {a b : Term} {registry : List String}
    (ha : a.freeNames ⊆ registry) (hb : b.freeNames ⊆ registry) :
    (a.registered [] registry).2 = registry ∧ (b.registered [] registry).2 = registry ∧
      ((a.registered [] registry).1 = (b.registered [] registry).1 ↔ AlphaEq a b) ∧
      ∀ p q : String, Term.ofText p = .ok a → Term.ofText q = .ok b →
        a.freeNames = [] → b.freeNames = [] →
        ∃ s s', bits p none = .ok s ∧ bits q none = .ok s' ∧ (s = s' ↔ AlphaEq a b) := by
  have hregistered : ∀ {t : Term}, t.freeNames ⊆ registry →
      t.registered [] registry = (t.translate (ofContext registry), registry) := by
    intro t ht
    exact registered_eq ht
  rw [hregistered ha, hregistered hb, alphaEq_iff_translate_eq ha hb]
  refine ⟨rfl, rfl, Iff.rfl, ?_⟩
  intro p q hp hq hca hcb
  refine ⟨_, _, bits_of_closed hp hca, bits_of_closed hq hcb, ?_⟩
  rw [IndexTerm.bits_injective.eq_iff, ← alphaEq_iff_translate_eq ha hb]
  exact (alphaEq_iff_translate_eq (by simp [hca]) (by simp [hcb])).symm

/-- An inner binder hides an outer one of its name, so `λx.λx.x` is `λy.λz.z` with
other binders, and `λx.λy.x` is not. -/
theorem registered_eq_iff_alphaEq_shadowed :
    AlphaEq (lam "x" (lam "x" (var "x"))) (lam "y" (lam "z" (var "z"))) ∧
      (∃ s, bits "λx.λx.x" none = .ok s ∧ bits "λy.λz.z" none = .ok s) ∧
      ¬ AlphaEq (lam "x" (lam "x" (var "x"))) (lam "x" (lam "y" (var "x"))) := by
  have hx : (lam "x" (lam "x" (var "x"))).freeNames ⊆ ["z", "x"] := by decide
  have hz : (lam "y" (lam "z" (var "z"))).freeNames ⊆ ["z", "x"] := by decide
  have hy : (lam "x" (lam "y" (var "x"))).freeNames ⊆ ["z", "x"] := by decide
  obtain ⟨_, _, hiff, hbits⟩ := registered_eq_iff_alphaEq hx hz
  obtain ⟨_, _, hiff', _⟩ := registered_eq_iff_alphaEq hx hy
  have halpha : AlphaEq (lam "x" (lam "x" (var "x"))) (lam "y" (lam "z" (var "z"))) :=
    hiff.mp (by decide)
  obtain ⟨s, s', hs, hs', heq⟩ :=
    hbits "λx.λx.x" "λy.λz.z" (by cbv) (by cbv) (by decide) (by decide)
  exact ⟨halpha, ⟨s, hs, by rw [hs', heq.mpr halpha]⟩, fun h => absurd (hiff'.mpr h) (by decide)⟩

end BinaryLambda.Program
