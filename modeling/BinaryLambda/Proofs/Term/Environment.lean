import BinaryLambda.Proofs.IndexTerm.Substitution
import BinaryLambda.Proofs.Term.Names
import Mathlib.Data.List.Basic

set_option autoImplicit false

/-!
# Terms: indexing in an environment

An environment gives an index term for every name, and a term translates to the
index term in which every free name stands for what the environment gives.
Indexing a term against a context is the translation in which a name stands for
its place in the context (`indexed_eq_ok`).

Environments make the equations of renaming short: what a renaming does to a
term, an assignment does to the environment (`translate_rename`), and a
replacement of indices is one of the environment (`subst_translate`).
-/

namespace BinaryLambda

/-- An index term for every name. -/
abbrev Environment := String → IndexTerm

namespace Environment

/-- The environment beneath a binder. -/
def push (p : String) (env : Environment) : Environment :=
  fun y => if y = p then .bound 0 else (env y).lift 0

/-- The environment in which one name stands for something else. -/
def assign (x : String) (v : IndexTerm) (env : Environment) : Environment :=
  fun y => if y = x then v else env y

/-- Every name stands for its place among the names of a context, the first one if
it is there more than once. -/
def ofContext (context : List String) : Environment :=
  fun y => .bound (context.idxOf y)

@[simp] theorem push_self (p : String) (env : Environment) : push p env p = .bound 0 := by
  simp [push]

theorem push_of_ne {p y : String} (h : y ≠ p) (env : Environment) :
    push p env y = (env y).lift 0 := by
  simp [push, h]

@[simp] theorem assign_self (x : String) (v : IndexTerm) (env : Environment) :
    assign x v env x = v := by
  simp [assign]

theorem assign_of_ne {x y : String} (h : y ≠ x) (v : IndexTerm) (env : Environment) :
    assign x v env y = env y := by
  simp [assign, h]

/-- A binder hides what is assigned to its name. -/
theorem push_assign_self (x : String) (v : IndexTerm) (env : Environment) :
    push x (assign x v env) = push x env := by
  funext y
  by_cases hy : y = x
  · rw [hy, push_self, push_self]
  · rw [push_of_ne hy, push_of_ne hy, assign_of_ne hy]

/-- What is assigned to another name is lifted beneath a binder. -/
theorem push_assign_of_ne {p x : String} (h : p ≠ x) (v : IndexTerm) (env : Environment) :
    push p (assign x v env) = assign x (v.lift 0) (push p env) := by
  funext y
  by_cases hp : y = p
  · subst hp
    rw [push_self, assign_of_ne h, push_self]
  · by_cases hx : y = x
    · subst hx
      rw [push_of_ne hp, assign_self, assign_self]
    · rw [push_of_ne hp, assign_of_ne hx, assign_of_ne hx, push_of_ne hp]

/-- A binder comes in front of the context. -/
theorem push_ofContext (p : String) (context : List String) :
    push p (ofContext context) = ofContext (p :: context) := by
  funext y
  by_cases hy : y = p
  · subst hy
    rw [push_self, ofContext, List.idxOf_cons_self]
  · simp [push_of_ne hy, ofContext, List.idxOf_cons_ne _ (Ne.symm hy)]

/-- A replacement beneath the binder is one around it. -/
theorem push_subst (p : String) (env : Environment) (σ : Nat → IndexTerm) :
    push p (fun y => (env y).subst σ) = fun y => (push p env y).subst (IndexTerm.beneath σ) := by
  funext y
  by_cases hy : y = p
  · subst hy
    rw [push_self, push_self]
    rfl
  · rw [push_of_ne hy, push_of_ne hy, IndexTerm.lift_subst, IndexTerm.subst_lift]
    rfl

end Environment

namespace Term

open Environment

/-! ## Translation -/

/-- The index term of a term whose free names stand for index terms. -/
def translate (env : Environment) : Term → IndexTerm
  | var x => env x
  | lam p b => .lam (b.translate (push p env))
  | app f a => .app (f.translate env) (a.translate env)

@[simp] theorem translate_var (env : Environment) (x : String) :
    (var x).translate env = env x := rfl

@[simp] theorem translate_lam (env : Environment) (p : String) (b : Term) :
    (lam p b).translate env = .lam (b.translate (push p env)) := rfl

@[simp] theorem translate_app (env : Environment) (f a : Term) :
    (app f a).translate env = .app (f.translate env) (a.translate env) := rfl

/-- Only what the free names stand for matters. -/
theorem translate_congr {t : Term} {env env' : Environment}
    (h : ∀ y ∈ t.freeNames, env y = env' y) : t.translate env = t.translate env' := by
  induction t generalizing env env' with
  | var x => exact h x (mem_freeNames_var.mpr rfl)
  | lam p b ih =>
      have hbody : ∀ y ∈ b.freeNames, push p env y = push p env' y := by
        intro y hy
        by_cases hp : y = p
        · rw [hp, push_self, push_self]
        · rw [push_of_ne hp, push_of_ne hp, h y (mem_freeNames_lam.mpr ⟨hp, hy⟩)]
      rw [translate_lam, translate_lam, ih hbody]
  | app f a ihf iha =>
      rw [translate_app, translate_app,
        ihf fun y hy => h y (mem_freeNames_app.mpr (.inl hy)),
        iha fun y hy => h y (mem_freeNames_app.mpr (.inr hy))]

/-- What is assigned to a name that is not free does not matter. -/
theorem translate_assign {t : Term} {x : String} (h : x ∉ t.freeNames) (v : IndexTerm)
    (env : Environment) : t.translate (assign x v env) = t.translate env := by
  apply translate_congr
  intro y hy
  apply assign_of_ne
  rintro rfl
  exact h hy

/-- A replacement of indices is one of what the names stand for. -/
theorem subst_translate (t : Term) (env : Environment) (σ : Nat → IndexTerm) :
    (t.translate env).subst σ = t.translate fun y => (env y).subst σ := by
  induction t generalizing env σ with
  | var x => rfl
  | lam p b ih => rw [translate_lam, IndexTerm.subst_lam, translate_lam, ih, push_subst]
  | app f a ihf iha => rw [translate_app, IndexTerm.subst_app, translate_app, ihf, iha]

/-- A term translates to the lifted index term beneath a binder that binds none of
its names. -/
theorem translate_push {t : Term} {p : String} (h : p ∉ t.freeNames) (env : Environment) :
    t.translate (push p env) = (t.translate env).lift 0 := by
  rw [IndexTerm.lift_eq_subst, subst_translate]
  apply translate_congr
  intro y hy
  have hne : y ≠ p := by
    rintro rfl
    exact h hy
  rw [push_of_ne hne, IndexTerm.lift_eq_subst]

/-- A renaming that is not captured is an assignment to the old name. -/
theorem translate_rename {t : Term} {x c : String} (h : t.bindsFree c x = false)
    (env : Environment) : (t.rename x c).translate env = t.translate (assign x (env c) env) := by
  induction t generalizing env with
  | var y =>
      by_cases hy : y = x
      · simp [rename, hy]
      · simp [rename, hy, assign_of_ne hy]
  | lam p b ih =>
      by_cases hx : p = x
      · subst hx
        rw [rename_lam_old, translate_lam, translate_lam, push_assign_self]
      by_cases hc : p = c
      · -- Nothing is renamed beneath a binder of the new name, and nothing had to be.
        subst hc
        rw [bindsFree_lam_binder hx, occursFree_eq_false] at h
        rw [rename_lam_new, translate_lam, translate_lam, push_assign_of_ne hx,
          translate_assign h]
      · rw [bindsFree_lam_of_ne hx hc] at h
        rw [rename_lam_of_ne hx hc, translate_lam, translate_lam, ih h, push_assign_of_ne hx,
          push_of_ne (Ne.symm hc)]
  | app f a ihf iha =>
      rw [bindsFree_app_eq_false] at h
      rw [rename, translate_app, translate_app, ihf h.1, iha h.2]

/-- A binder may take another name that is not free in the body and captures nothing. -/
theorem translate_rename_push {b : Term} {x c : String} (hfree : c ∉ b.freeNames)
    (hbinds : b.bindsFree c x = false) (env : Environment) :
    (b.rename x c).translate (push c env) = b.translate (push x env) := by
  rw [translate_rename hbinds, push_self]
  apply translate_congr
  intro y hy
  by_cases hyx : y = x
  · rw [hyx, assign_self, push_self]
  · have hyc : y ≠ c := by
      rintro rfl
      exact hfree hy
    rw [assign_of_ne hyx, push_of_ne hyc, push_of_ne hyx]

/-! ## Indexing -/

theorem idxOf?_eq_some_idxOf {x : String} {context : List String} (h : x ∈ context) :
    context.idxOf? x = some (context.idxOf x) := by
  obtain ⟨i, hi⟩ := Option.isSome_iff_exists.mp (List.isSome_idxOf?.mpr h)
  rw [List.idxOf_eq_getD_idxOf?, hi, Option.getD_some]

/-- Indexing succeeds against a context that has all free names. -/
theorem indexed_eq_ok {t : Term} {context : List String} (h : t.freeNames ⊆ context) :
    t.indexed context = .ok (t.translate (ofContext context)) := by
  induction t generalizing context with
  | var x =>
      have hx : x ∈ context := freeNames_var_subset_iff.mp h
      simp only [indexed, idxOf?_eq_some_idxOf hx, translate_var, ofContext]
  | lam p b ih =>
      rw [indexed, ih (freeNames_lam_subset_iff.mp h), translate_lam, push_ofContext]
      rfl
  | app f a ihf iha =>
      obtain ⟨hf, ha⟩ := freeNames_app_subset_iff.mp h
      rw [indexed, ihf hf, iha ha]
      rfl

end Term

end BinaryLambda
