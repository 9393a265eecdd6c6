import BinaryLambda.Proofs.IndexTerm.Substitution
import Mathlib.Logic.Function.Iterate
import Mathlib.Logic.Relation

set_option autoImplicit false

/-!
# Index terms: reduction

A redex is an application of an abstraction.  `Contracts` contracts one redex
anywhere and `Reduces` any number of them in any order.  `contractOutermost`
contracts every outermost redex at once; `reduces_contractOutermost` says that
this is a reduction, and `contractOutermost_of_normal` that it leaves a normal
term alone.
-/

namespace BinaryLambda.IndexTerm

open Relation

/-- A term that contains an application of an abstraction. -/
inductive HasRedex : IndexTerm → Prop where
  | redex (b a : IndexTerm) : HasRedex (app (lam b) a)
  | body {b : IndexTerm} : HasRedex b → HasRedex (lam b)
  | function {f : IndexTerm} (a : IndexTerm) : HasRedex f → HasRedex (app f a)
  | argument (f : IndexTerm) {a : IndexTerm} : HasRedex a → HasRedex (app f a)

/-- A term without redex. -/
def Normal (t : IndexTerm) : Prop := ¬ t.HasRedex

/-- One redex is contracted, at any place. -/
inductive Contracts : IndexTerm → IndexTerm → Prop where
  | redex (b a : IndexTerm) : Contracts (app (lam b) a) (b.substitute 0 a)
  | body {b b' : IndexTerm} : Contracts b b' → Contracts (lam b) (lam b')
  | function {f f' : IndexTerm} (a : IndexTerm) : Contracts f f' → Contracts (app f a) (app f' a)
  | argument (f : IndexTerm) {a a' : IndexTerm} : Contracts a a' → Contracts (app f a) (app f a')

/-- Finitely many redexes are contracted one after the other. -/
abbrev Reduces : IndexTerm → IndexTerm → Prop := ReflTransGen Contracts

/-! ## Normal terms -/

theorem normal_bound (n : Nat) : (bound n).Normal := nofun

theorem Normal.body {b : IndexTerm} (h : (lam b).Normal) : b.Normal :=
  fun hb => h (.body hb)

theorem Normal.function {f a : IndexTerm} (h : (app f a).Normal) : f.Normal :=
  fun hf => h (.function a hf)

theorem Normal.argument {f a : IndexTerm} (h : (app f a).Normal) : a.Normal :=
  fun ha => h (.argument f ha)

theorem Normal.function_ne_lam {f a : IndexTerm} (h : (app f a).Normal) (b : IndexTerm) :
    f ≠ lam b := by
  rintro rfl
  exact h (.redex b a)

/-- What contracts has a redex. -/
theorem Contracts.hasRedex {t u : IndexTerm} (h : Contracts t u) : t.HasRedex := by
  induction h with
  | redex b a => exact .redex b a
  | body _ ih => exact .body ih
  | function a _ ih => exact .function a ih
  | argument f _ ih => exact .argument f ih

/-- A normal term reduces to itself only. -/
theorem Reduces.eq_of_normal {t u : IndexTerm} (h : Reduces t u) (ht : t.Normal) : u = t := by
  cases ReflTransGen.cases_head h with
  | inl heq => exact heq.symm
  | inr hstep =>
      obtain ⟨v, hv, _⟩ := hstep
      exact absurd hv.hasRedex ht

/-! ## Reduction inside a term -/

theorem Reduces.lam {b b' : IndexTerm} (h : Reduces b b') : Reduces (lam b) (lam b') :=
  ReflTransGen.lift IndexTerm.lam (fun _ _ => Contracts.body) _ _ h

theorem Reduces.app {f f' a a' : IndexTerm} (hf : Reduces f f') (ha : Reduces a a') :
    Reduces (app f a) (app f' a') :=
  have hfun : Reduces (.app f a) (.app f' a) :=
    ReflTransGen.lift (fun g => IndexTerm.app g a) (fun _ _ => Contracts.function a) _ _ hf
  have harg : Reduces (.app f' a) (.app f' a') :=
    ReflTransGen.lift (IndexTerm.app f') (fun _ _ => Contracts.argument f') _ _ ha
  hfun.trans harg

/-- An abstraction reduces to abstractions only. -/
theorem Reduces.of_lam {b u : IndexTerm} (h : Reduces (.lam b) u) :
    ∃ b', u = .lam b' ∧ Reduces b b' := by
  induction h with
  | refl => exact ⟨b, rfl, .refl⟩
  | tail _ hstep ih =>
      obtain ⟨c, rfl, hc⟩ := ih
      cases hstep with
      | body hb => exact ⟨_, rfl, hc.tail hb⟩

/-! ## All outermost redexes at once -/

/-- Contracts every redex that is in no other redex. -/
def contractOutermost : IndexTerm → IndexTerm
  | bound n => bound n
  | lam b => lam b.contractOutermost
  | app (lam b) a => b.substitute 0 a
  | app f a => app f.contractOutermost a.contractOutermost

@[simp] theorem contractOutermost_lam (b : IndexTerm) :
    (lam b).contractOutermost = lam b.contractOutermost := rfl

@[simp] theorem contractOutermost_redex (b a : IndexTerm) :
    (app (lam b) a).contractOutermost = b.substitute 0 a := rfl

theorem contractOutermost_app {f : IndexTerm} (hf : ∀ b, f ≠ lam b) (a : IndexTerm) :
    (app f a).contractOutermost = app f.contractOutermost a.contractOutermost := by
  cases f with
  | bound n => rfl
  | lam b => exact absurd rfl (hf b)
  | app g c => rfl

/-- A term without redex stays as it is. -/
theorem contractOutermost_of_normal {t : IndexTerm} (h : t.Normal) : t.contractOutermost = t := by
  induction t with
  | bound n => rfl
  | lam b ih => rw [contractOutermost_lam, ih h.body]
  | app f a ihf iha =>
      rw [contractOutermost_app h.function_ne_lam, ihf h.function, iha h.argument]

/-- Contracting all outermost redexes is a reduction. -/
theorem reduces_contractOutermost (t : IndexTerm) : Reduces t t.contractOutermost := by
  induction t with
  | bound n => exact .refl
  | lam b ih => exact ih.lam
  | app f a ihf iha =>
      rcases f.eq_lam_or_ne_lam with ⟨b, rfl⟩ | hne
      · exact .single (.redex b a)
      · rw [contractOutermost_app hne]
        exact ihf.app iha

theorem reduces_iterate_contractOutermost (k : Nat) (t : IndexTerm) :
    Reduces t (contractOutermost^[k] t) := by
  induction k generalizing t with
  | zero => exact .refl
  | succ k ih => exact (reduces_contractOutermost t).trans (ih _)

/-- A normal term is never left again. -/
theorem iterate_contractOutermost_of_normal (k : Nat) {t : IndexTerm} (h : t.Normal) :
    contractOutermost^[k] t = t :=
  Function.iterate_fixed (contractOutermost_of_normal h) k

end BinaryLambda.IndexTerm
