import BinaryLambda.Proofs.IndexTerm.Reduction

set_option autoImplicit false

/-!
# Index terms: confluence

`Parallel` contracts any set of the redexes of a term at once, and `develop`
contracts all of them.  Whatever a parallel step does, a second one catches up
with the full development (`Parallel.triangle`), so parallel steps have the
diamond property and reduction is confluent: a term has at most one normal form.
-/

namespace BinaryLambda.IndexTerm

open Relation

/-- Some of the redexes of a term are contracted at once. -/
inductive Parallel : IndexTerm → IndexTerm → Prop where
  | bound (n : Nat) : Parallel (bound n) (bound n)
  | lam {b b' : IndexTerm} : Parallel b b' → Parallel (lam b) (lam b')
  | app {f f' a a' : IndexTerm} : Parallel f f' → Parallel a a' → Parallel (app f a) (app f' a')
  | redex {b b' a a' : IndexTerm} : Parallel b b' → Parallel a a' →
      Parallel (app (lam b) a) (b'.substitute 0 a')

theorem Parallel.refl (t : IndexTerm) : Parallel t t := by
  induction t with
  | bound n => exact .bound n
  | lam b ih => exact .lam ih
  | app f a ihf iha => exact .app ihf iha

/-- One contraction is a parallel step. -/
theorem Contracts.parallel {t u : IndexTerm} (h : Contracts t u) : Parallel t u := by
  induction h with
  | redex b a => exact .redex (.refl b) (.refl a)
  | body _ ih => exact .lam ih
  | function a _ ih => exact .app ih (.refl a)
  | argument f _ ih => exact .app (.refl f) ih

/-- A parallel step is a reduction. -/
theorem Parallel.reduces {t u : IndexTerm} (h : Parallel t u) : Reduces t u := by
  induction h with
  | bound n => exact .refl
  | lam _ ih => exact ih.lam
  | app _ _ ihf iha => exact ihf.app iha
  | redex _ _ ihb iha => exact (ihb.lam.app iha).tail (.redex _ _)

/-- Reductions are sequences of parallel steps. -/
theorem reduces_iff_parallel {t u : IndexTerm} : Reduces t u ↔ ReflTransGen Parallel t u := by
  constructor
  · intro h
    exact ReflTransGen.mono (fun _ _ => Contracts.parallel) _ _ h
  · intro h
    induction h with
    | refl => exact .refl
    | tail _ hstep ih => exact ih.trans hstep.reduces

/-! ## Parallel steps and substitution -/

theorem Parallel.lift {t u : IndexTerm} (h : Parallel t u) (c : Nat) :
    Parallel (t.lift c) (u.lift c) := by
  induction h generalizing c with
  | bound n => exact .bound _
  | lam _ ih => exact .lam (ih (c + 1))
  | app _ _ ihf iha => exact .app (ihf c) (iha c)
  | redex _ _ ihb iha =>
      rw [lift_substitute]
      exact .redex (ihb (c + 1)) (iha c)

theorem Parallel.beneath {σ τ : Nat → IndexTerm} (h : ∀ n, Parallel (σ n) (τ n)) (n : Nat) :
    Parallel (beneath σ n) (beneath τ n) :=
  beneath_rel (.bound 0) (fun ht => ht.lift 0) h n

/-- Parallel steps in a term and in what replaces its indices make one step. -/
theorem Parallel.subst {t u : IndexTerm} (h : Parallel t u) {σ τ : Nat → IndexTerm}
    (hσ : ∀ n, Parallel (σ n) (τ n)) : Parallel (t.subst σ) (u.subst τ) := by
  induction h generalizing σ τ with
  | bound n => exact hσ n
  | lam _ ih => exact .lam (ih (Parallel.beneath hσ))
  | app _ _ ihf iha => exact .app (ihf hσ) (iha hσ)
  | redex _ _ ihb iha =>
      rw [subst_substitute]
      exact .redex (ihb (Parallel.beneath hσ)) (iha hσ)

theorem Parallel.substitute {b b' a a' : IndexTerm} (hb : Parallel b b') (ha : Parallel a a') :
    Parallel (b.substitute 0 a) (b'.substitute 0 a') := by
  rw [substitute_eq_subst, substitute_eq_subst]
  exact hb.subst (plug_rel .bound ha)

theorem Parallel.of_lam {b u : IndexTerm} (h : Parallel (.lam b) u) :
    ∃ b', u = .lam b' ∧ Parallel b b' := by
  cases h with
  | lam hb => exact ⟨_, rfl, hb⟩

/-! ## The full development -/

/-- Contracts every redex of a term, the inner ones too. -/
def develop : IndexTerm → IndexTerm
  | bound n => bound n
  | lam b => lam b.develop
  | app (lam b) a => b.develop.substitute 0 a.develop
  | app f a => app f.develop a.develop

theorem develop_app {f : IndexTerm} (hf : ∀ b, f ≠ lam b) (a : IndexTerm) :
    (app f a).develop = app f.develop a.develop := by
  cases f with
  | bound n => rfl
  | lam b => exact absurd rfl (hf b)
  | app g c => rfl

/-- After any parallel step, another one reaches the full development. -/
theorem Parallel.triangle {t u : IndexTerm} (h : Parallel t u) : Parallel u t.develop := by
  induction h with
  | bound n => exact .bound n
  | lam _ ih => exact .lam ih
  | @app f f' a a' hf _ ihf iha =>
      rcases f.eq_lam_or_ne_lam with ⟨b, rfl⟩ | hne
      · -- The redex was left alone, and the second step contracts it.
        obtain ⟨b', rfl, _⟩ := hf.of_lam
        cases ihf with
        | lam hb => exact .redex hb iha
      · rw [develop_app hne]
        exact .app ihf iha
  | redex _ _ ihb iha => exact ihb.substitute iha

/-- Reductions from one term can be continued to a common term. -/
theorem Reduces.confluent {t u v : IndexTerm} (hu : Reduces t u) (hv : Reduces t v) :
    ∃ w, Reduces u w ∧ Reduces v w := by
  have diamond : ∀ a b c, Parallel a b → Parallel a c →
      ∃ d, ReflGen Parallel b d ∧ ReflTransGen Parallel c d := by
    intro a b c hb hc
    exact ⟨a.develop, .single hb.triangle, .single hc.triangle⟩
  obtain ⟨w, huw, hvw⟩ :=
    church_rosser diamond (reduces_iff_parallel.mp hu) (reduces_iff_parallel.mp hv)
  exact ⟨w, reduces_iff_parallel.mpr huw, reduces_iff_parallel.mpr hvw⟩

/-- Whatever a term reduces to reduces to its normal form, if it has one. -/
theorem Reduces.to_normal {t u n : IndexTerm} (hu : Reduces t u) (hn : Reduces t n)
    (hnormal : n.Normal) : Reduces u n := by
  obtain ⟨w, huw, hnw⟩ := hu.confluent hn
  rwa [← hnw.eq_of_normal hnormal]

/-- A term has at most one normal form. -/
theorem Reduces.normal_unique {t n n' : IndexTerm} (h : Reduces t n) (h' : Reduces t n')
    (hn : n.Normal) (hn' : n'.Normal) : n' = n :=
  ((h'.to_normal h hn).eq_of_normal hn').symm

end BinaryLambda.IndexTerm
