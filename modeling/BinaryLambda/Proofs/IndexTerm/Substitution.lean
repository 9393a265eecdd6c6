import BinaryLambda.IndexTerm.Basic
import Mathlib.Tactic.Common
import Mathlib.Tactic.SplitIfs

set_option autoImplicit false

/-!
# Index terms: substitution

`lift` makes room for one more binder around a term, and `substitute` puts a
value in the place of one index and closes the gap that this index leaves.  Both
work on one index at a time.  Their equations are proved through `subst`, which
replaces all indices at once: `substitute_eq_subst` says which replacement a
substitution is, and `subst_subst` composes two replacements.
-/

namespace BinaryLambda.IndexTerm

/-- A function side makes a redex or it does not. -/
theorem eq_lam_or_ne_lam (t : IndexTerm) : (∃ b, t = lam b) ∨ ∀ b, t ≠ lam b := by
  cases t with
  | bound n => exact .inr nofun
  | lam b => exact .inl ⟨b, rfl⟩
  | app f a => exact .inr nofun

/-! ## One index at a time -/

/-- The term with one more binder around its outer `cutoff` binders: the indices
that reach past these count one more. -/
def lift (cutoff : Nat) : IndexTerm → IndexTerm
  | bound n => bound (if n < cutoff then n else n + 1)
  | lam b => lam (b.lift (cutoff + 1))
  | app f a => app (f.lift cutoff) (a.lift cutoff)

/-- Replaces the index that has `depth` binders between by a value.  The value is
lifted under every binder that is passed, and the indices above the replaced one
count one less. -/
def substitute : IndexTerm → Nat → IndexTerm → IndexTerm
  | bound n, depth, value =>
    if n < depth then bound n else if n = depth then value else bound (n - 1)
  | lam b, depth, value => lam (b.substitute (depth + 1) (value.lift 0))
  | app f a, depth, value => app (f.substitute depth value) (a.substitute depth value)

@[simp] theorem lift_bound (c n : Nat) :
    (bound n).lift c = bound (if n < c then n else n + 1) := rfl

@[simp] theorem lift_lam (c : Nat) (b : IndexTerm) : (lam b).lift c = lam (b.lift (c + 1)) := rfl

@[simp] theorem lift_app (c : Nat) (f a : IndexTerm) :
    (app f a).lift c = app (f.lift c) (a.lift c) := rfl

@[simp] theorem substitute_lam (b v : IndexTerm) (d : Nat) :
    (lam b).substitute d v = lam (b.substitute (d + 1) (v.lift 0)) := rfl

@[simp] theorem substitute_app (f a v : IndexTerm) (d : Nat) :
    (app f a).substitute d v = app (f.substitute d v) (a.substitute d v) := rfl

/-- Two lifts change places; the outer cutoff moves by the inner one. -/
theorem lift_lift {i j : Nat} (t : IndexTerm) (h : i ≤ j) :
    (t.lift i).lift (j + 1) = (t.lift j).lift i := by
  induction t generalizing i j with
  | bound n =>
      simp only [lift_bound, bound.injEq]
      split_ifs <;> omega
  | lam b ih => simp only [lift_lam, ih (Nat.succ_le_succ h)]
  | app f a ihf iha => simp only [lift_app, ihf h, iha h]

/-! ## All indices at once -/

/-- A replacement beneath a binder: the index of that binder stays. -/
def beneath (σ : Nat → IndexTerm) : Nat → IndexTerm
  | 0 => bound 0
  | n + 1 => (σ n).lift 0

/-- Replaces every index `n` by `σ n`. -/
def subst (σ : Nat → IndexTerm) : IndexTerm → IndexTerm
  | bound n => σ n
  | lam b => lam (b.subst (beneath σ))
  | app f a => app (f.subst σ) (a.subst σ)

@[simp] theorem subst_bound (σ : Nat → IndexTerm) (n : Nat) : (bound n).subst σ = σ n := rfl

@[simp] theorem subst_lam (σ : Nat → IndexTerm) (b : IndexTerm) :
    (lam b).subst σ = lam (b.subst (beneath σ)) := rfl

@[simp] theorem subst_app (σ : Nat → IndexTerm) (f a : IndexTerm) :
    (app f a).subst σ = app (f.subst σ) (a.subst σ) := rfl

@[simp] theorem beneath_bound : beneath bound = bound := by
  funext n
  cases n <;> rfl

/-- Replacing every index by itself changes nothing. -/
@[simp] theorem subst_id (t : IndexTerm) : t.subst bound = t := by
  induction t with
  | bound n => rfl
  | lam b ih => simp only [subst_lam, beneath_bound, ih]
  | app f a ihf iha => simp only [subst_app, ihf, iha]

theorem beneath_comp_lift (σ : Nat → IndexTerm) (c : Nat) :
    (fun n => beneath σ (if n < c + 1 then n else n + 1)) =
      beneath (fun n => σ (if n < c then n else n + 1)) := by
  funext n
  cases n with
  | zero => simp [beneath]
  | succ n =>
      simp only [Nat.add_lt_add_iff_right, beneath]
      split_ifs <;> rfl

/-- A replacement after a lift. -/
theorem subst_lift (t : IndexTerm) (c : Nat) (σ : Nat → IndexTerm) :
    (t.lift c).subst σ = t.subst (fun n => σ (if n < c then n else n + 1)) := by
  induction t generalizing c σ with
  | bound n => rfl
  | lam b ih => simp only [lift_lam, subst_lam, ih, beneath_comp_lift]
  | app f a ihf iha => simp only [lift_app, subst_app, ihf, iha]

theorem lift_comp_beneath (σ : Nat → IndexTerm) (c : Nat) :
    (fun n => (beneath σ n).lift (c + 1)) = beneath (fun n => (σ n).lift c) := by
  funext n
  cases n with
  | zero => simp [beneath]
  | succ n => exact lift_lift (σ n) (Nat.zero_le c)

/-- A lift after a replacement. -/
theorem lift_subst (t : IndexTerm) (c : Nat) (σ : Nat → IndexTerm) :
    (t.subst σ).lift c = t.subst (fun n => (σ n).lift c) := by
  induction t generalizing c σ with
  | bound n => rfl
  | lam b ih => simp only [lift_lam, subst_lam, ih, lift_comp_beneath]
  | app f a ihf iha => simp only [lift_app, subst_app, ihf, iha]

theorem subst_comp_beneath (σ τ : Nat → IndexTerm) :
    (fun n => (beneath σ n).subst (beneath τ)) = beneath (fun n => (σ n).subst τ) := by
  funext n
  cases n with
  | zero => rfl
  | succ n => simp only [beneath, subst_lift, lift_subst, Nat.not_lt_zero, if_false]

/-- Two replacements one after the other are one. -/
theorem subst_subst (t : IndexTerm) (σ τ : Nat → IndexTerm) :
    (t.subst σ).subst τ = t.subst (fun n => (σ n).subst τ) := by
  induction t generalizing σ τ with
  | bound n => rfl
  | lam b ih => simp only [subst_lam, ih, subst_comp_beneath]
  | app f a ihf iha => simp only [subst_app, ihf, iha]

/-- Replacements that are related at every index are so beneath a binder. -/
theorem beneath_rel {R : IndexTerm → IndexTerm → Prop} (hbound : R (bound 0) (bound 0))
    (hlift : ∀ {t u : IndexTerm}, R t u → R (t.lift 0) (u.lift 0)) {σ τ : Nat → IndexTerm}
    (h : ∀ n, R (σ n) (τ n)) (n : Nat) : R (beneath σ n) (beneath τ n) := by
  cases n with
  | zero => exact hbound
  | succ n => exact hlift (h n)

/-! ## One index at a time, as a replacement -/

/-- The replacement that `substitute` makes at the index `0`. -/
def plug (value : IndexTerm) : Nat → IndexTerm
  | 0 => value
  | n + 1 => bound n

/-- Related values plug related replacements. -/
theorem plug_rel {R : IndexTerm → IndexTerm → Prop} (hbound : ∀ n, R (bound n) (bound n))
    {v w : IndexTerm} (h : R v w) (n : Nat) : R (plug v n) (plug w n) := by
  cases n with
  | zero => exact h
  | succ n => exact hbound n

/-- A substitution at any depth is a replacement. -/
theorem substitute_eq (t : IndexTerm) (d : Nat) (v : IndexTerm) :
    t.substitute d v = t.subst fun n => (bound n).substitute d v := by
  induction t generalizing d v with
  | bound n => rfl
  | lam b ih =>
      have hbeneath : (fun n => (bound n).substitute (d + 1) (v.lift 0)) =
          beneath fun n => (bound n).substitute d v := by
        funext n
        cases n with
        | zero => simp [substitute, beneath]
        | succ n =>
            simp only [substitute, beneath, Nat.add_lt_add_iff_right, Nat.add_right_cancel_iff]
            split_ifs with hlt heq
            · simp
            · rfl
            · simp only [lift_bound, Nat.not_lt_zero, if_false, bound.injEq]
              omega
      rw [substitute_lam, subst_lam, ih, hbeneath]
  | app f a ihf iha => rw [substitute_app, subst_app, ihf, iha]

/-- The substitution that contracts a redex is a replacement. -/
theorem substitute_eq_subst (t v : IndexTerm) : t.substitute 0 v = t.subst (plug v) := by
  rw [substitute_eq]
  congr 1
  funext n
  cases n <;> simp [substitute, plug]

/-- A replacement after the substitution that contracts a redex. -/
theorem subst_substitute (b v : IndexTerm) (σ : Nat → IndexTerm) :
    (b.substitute 0 v).subst σ = (b.subst (beneath σ)).substitute 0 (v.subst σ) := by
  rw [substitute_eq_subst, substitute_eq_subst, subst_subst, subst_subst]
  congr 1
  funext n
  cases n with
  | zero => rfl
  | succ n => simp [plug, beneath, subst_lift]

/-- A lift is a replacement. -/
theorem lift_eq_subst (t : IndexTerm) (c : Nat) :
    t.lift c = t.subst fun n => bound (if n < c then n else n + 1) := by
  rw [← subst_lift, subst_id]

/-- A lift loses nothing. -/
theorem lift_inj {t u : IndexTerm} : t.lift 0 = u.lift 0 ↔ t = u := by
  refine ⟨fun h => ?_, congrArg _⟩
  have hback : ∀ v : IndexTerm, (v.lift 0).subst (fun n => bound (n - 1)) = v := by
    intro v
    rw [subst_lift]
    exact subst_id v
  rw [← hback t, h, hback u]

/-- A lift after the substitution that contracts a redex. -/
theorem lift_substitute (b v : IndexTerm) (c : Nat) :
    (b.substitute 0 v).lift c = (b.lift (c + 1)).substitute 0 (v.lift c) := by
  rw [lift_eq_subst, subst_substitute, lift_eq_subst b, lift_eq_subst v]
  congr 2
  rw [← beneath_comp_lift bound c, beneath_bound]

end BinaryLambda.IndexTerm
