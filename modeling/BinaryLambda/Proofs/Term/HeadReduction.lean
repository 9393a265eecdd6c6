import BinaryLambda.Proofs.Term.Simulation
import Mathlib.Logic.Relation

set_option autoImplicit false

/-!
# Terms: runs at the head

A step contracts all outermost redexes.  Where the arguments after the head are without
redex, it contracts the head redex alone (`HeadStep`), so a run can be followed from one
head redex to the next.  A term that is reached and has no redex is what every run with a
high enough cap leaves, and no run is stopped (`Reaches.interpret`).
-/

namespace BinaryLambda.Term

/-! ## Head steps -/

/-- The contraction of a redex that is applied to arguments without redex. -/
inductive HeadStep : Term → Term → Prop where
  | contract {p : String} {b a r : Term} : SubstitutesTo a p b r → HeadStep (app (lam p b) a) r
  | app {f f' a : Term} : HeadStep f f' → a.hasRedex = false → HeadStep (app f a) (app f' a)

theorem HeadStep.ne_lam {t u : Term} (h : HeadStep t u) (p : String) (b : Term) : t ≠ lam p b := by
  cases h <;> nofun

theorem HeadStep.hasRedex {t u : Term} (h : HeadStep t u) : t.hasRedex = true := by
  induction h with
  | contract _ => rfl
  | app hf _ ih => rw [hasRedex_app hf.ne_lam, ih, Bool.true_or]

/-- A head step is the step of its term. -/
theorem HeadStep.step_eq {t u : Term} (h : HeadStep t u) : t.step = .ok u := by
  induction h with
  | contract hr => exact hr.substitute_eq
  | app hf ha ih =>
      rw [step_app hf.ne_lam, ih, step_of_normal ha]
      rfl

/-- Head steps before an argument without redex. -/
theorem headSteps_app {t u a : Term} (h : Relation.ReflTransGen HeadStep t u)
    (ha : a.hasRedex = false) : Relation.ReflTransGen HeadStep (app t a) (app u a) :=
  h.lift (fun v => app v a) fun _ _ hstep => hstep.app ha

/-! ## What a run reaches -/

/-- The term is among those that a run goes through. -/
def Reaches (t u : Term) : Prop := ∃ n, Steps n t u

theorem Reaches.refl (t : Term) : Reaches t t := ⟨0, .zero t⟩

/-- A step, and what is reached after it. -/
theorem Reaches.of_step {t u v : Term} (hredex : t.hasRedex = true) (hstep : t.step = .ok u)
    (h : Reaches u v) : Reaches t v := by
  obtain ⟨n, hn⟩ := h
  exact ⟨n + 1, .succ hredex hstep hn⟩

theorem Reaches.of_headStep {t u v : Term} (ht : HeadStep t u) (h : Reaches u v) : Reaches t v :=
  h.of_step ht.hasRedex ht.step_eq

/-- At an application that is no redex, both sides take their step at once. -/
theorem Reaches.of_headStep_both {f f' a a' v : Term} (hf : HeadStep f f') (ha : HeadStep a a')
    (h : Reaches (app f' a') v) : Reaches (app f a) v := by
  apply h.of_step
  · rw [hasRedex_app hf.ne_lam, hf.hasRedex, Bool.true_or]
  · rw [step_app hf.ne_lam, hf.step_eq, ha.step_eq]
    rfl

theorem Reaches.of_headSteps {t u v : Term} (ht : Relation.ReflTransGen HeadStep t u)
    (h : Reaches u v) : Reaches t v := by
  induction ht using Relation.ReflTransGen.head_induction_on with
  | refl => exact h
  | head hstep _ ih => exact ih.of_headStep hstep

/-- A run beneath a binder. -/
theorem Reaches.lam {t u : Term} (h : Reaches t u) (p : String) : Reaches (lam p t) (lam p u) := by
  obtain ⟨n, hn⟩ := h
  induction hn with
  | zero t => exact .refl _
  | succ hredex hstep _ ih => exact ih.of_step hredex (by rw [step, hstep]; rfl)

/-- A run in the argument of a variable. -/
theorem Reaches.app_var {t u : Term} (h : Reaches t u) (x : String) :
    Reaches (app (var x) t) (app (var x) u) := by
  obtain ⟨n, hn⟩ := h
  have hvar : ∀ p b, var x ≠ Term.lam p b := by
    intro p b h
    cases h
  induction hn with
  | zero t => exact .refl _
  | succ hredex hstep _ ih =>
      refine ih.of_step ?_ ?_
      · rw [hasRedex_app hvar, hredex, Bool.or_true]
      · rw [step_app hvar, step, hstep]
        rfl

/-- What is reached and has no redex is what a run leaves whose cap is high enough, and no
run is stopped. -/
theorem Reaches.interpret {t u : Term} (h : Reaches t u) (hu : u.hasRedex = false) :
    (∃ least, ∀ cap, least ≤ cap → t.interpret cap = .ok u) ∧
      ∀ cap, ∃ r, t.interpret cap = .ok r := by
  obtain ⟨n, hn⟩ := h
  refine ⟨⟨n, ?_⟩, hn.exists_interpret hu⟩
  intro cap hcap
  obtain ⟨more, rfl⟩ := Nat.exists_eq_add_of_le hcap
  clear hcap
  induction hn with
  | zero t => exact interpret_of_normal hu _
  | succ hredex hstep _ ih =>
      rw [Nat.succ_add, interpret_of_step hredex hstep]
      exact ih hu

end BinaryLambda.Term
