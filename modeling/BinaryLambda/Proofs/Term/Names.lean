import BinaryLambda.Term.Renaming
import Mathlib.Tactic.Common
import Mathlib.Tactic.SplitIfs

set_option autoImplicit false

/-!
# Terms: free names and renaming

The free names of a term are the names that occur free in it
(`occursFree_eq_true`).  A renaming to a name that no binder captures moves
exactly the free occurrences of the old name (`mem_freeNames_rename`), and the
names that are found for a binder are not captured (`canRename_iff`).
-/

namespace BinaryLambda.Term

/-! ## Free names -/

@[simp] theorem mem_freeNames_var {x y : String} : y ∈ (var x).freeNames ↔ y = x := by
  simp [freeNames]

@[simp] theorem mem_freeNames_lam {p y : String} {b : Term} :
    y ∈ (lam p b).freeNames ↔ y ≠ p ∧ y ∈ b.freeNames := by
  simp [freeNames, and_comm]

@[simp] theorem mem_freeNames_app {y : String} {f a : Term} :
    y ∈ (app f a).freeNames ↔ y ∈ f.freeNames ∨ y ∈ a.freeNames := by
  simp [freeNames]

theorem notMem_freeNames_app {f a : Term} {x : String} (hf : x ∉ f.freeNames)
    (ha : x ∉ a.freeNames) : x ∉ (app f a).freeNames := by
  rw [mem_freeNames_app, not_or]
  exact ⟨hf, ha⟩

/-- The names that occur free are the free names. -/
theorem occursFree_eq_true {x : String} {t : Term} : t.occursFree x = true ↔ x ∈ t.freeNames := by
  induction t with
  | var y => simp
  | lam p b ih => simp [ih, ne_comm]
  | app f a ihf iha => simp [ihf, iha]

theorem occursFree_eq_false {x : String} {t : Term} : t.occursFree x = false ↔ x ∉ t.freeNames := by
  rw [← occursFree_eq_true, Bool.not_eq_true]

theorem freeNames_var_subset_iff {x : String} {names : List String} :
    (var x).freeNames ⊆ names ↔ x ∈ names := by
  simp [freeNames]

theorem freeNames_lam_subset_iff {p : String} {b : Term} {names : List String} :
    (lam p b).freeNames ⊆ names ↔ b.freeNames ⊆ p :: names := by
  simp only [List.subset_def, mem_freeNames_lam, List.mem_cons]
  constructor
  · intro h y hy
    by_cases hp : y = p
    · exact .inl hp
    · exact .inr (h ⟨hp, hy⟩)
  · rintro h y ⟨hp, hy⟩
    exact (h hy).resolve_left hp

theorem freeNames_app_subset_iff {f a : Term} {names : List String} :
    (app f a).freeNames ⊆ names ↔ f.freeNames ⊆ names ∧ a.freeNames ⊆ names :=
  List.append_subset

/-! ## Renaming -/

theorem bindsFree_lam_of_eq (c x : String) (b : Term) : (lam x b).bindsFree c x = false := by
  simp [bindsFree]

theorem bindsFree_lam_binder {c x : String} (h : c ≠ x) (b : Term) :
    (lam c b).bindsFree c x = b.occursFree x := by
  simp [bindsFree, h]

theorem bindsFree_lam_of_ne {c x p : String} (hx : p ≠ x) (hc : p ≠ c) (b : Term) :
    (lam p b).bindsFree c x = b.bindsFree c x := by
  simp [bindsFree, hx, hc]

theorem bindsFree_app_eq_false {c x : String} {f a : Term} :
    (app f a).bindsFree c x = false ↔ f.bindsFree c x = false ∧ a.bindsFree c x = false := by
  simp [bindsFree]

theorem rename_lam_old (x c : String) (b : Term) : (lam x b).rename x c = lam x b := by
  simp [rename]

theorem rename_lam_new (x c : String) (b : Term) : (lam c b).rename x c = lam c b := by
  simp [rename]

theorem rename_lam_of_ne {x c p : String} (hx : p ≠ x) (hc : p ≠ c) (b : Term) :
    (lam p b).rename x c = lam p (b.rename x c) := by
  simp [rename, hx, hc]

/-- A renaming that is not captured moves the free occurrences of the old name
to the new one and no other. -/
theorem mem_freeNames_rename {x c y : String} {t : Term} (h : t.bindsFree c x = false) :
    y ∈ (t.rename x c).freeNames ↔ (y = c ∧ x ∈ t.freeNames) ∨ (y ≠ x ∧ y ∈ t.freeNames) := by
  induction t with
  | var z => simp only [rename, mem_freeNames_var]; split_ifs <;> grind
  | lam p b ih =>
      by_cases hx : p = x
      · subst hx
        rw [rename_lam_old]
        simp
      by_cases hc : p = c
      · subst hc
        rw [bindsFree_lam_binder hx, occursFree_eq_false] at h
        simp only [rename_lam_new, mem_freeNames_lam]
        grind
      · rw [bindsFree_lam_of_ne hx hc] at h
        simp only [rename_lam_of_ne hx hc, mem_freeNames_lam, ih h]
        grind
  | app f a ihf iha =>
      rw [bindsFree_app_eq_false] at h
      simp only [rename, mem_freeNames_app, ihf h.1, iha h.2]
      grind

/-! ## Fresh names -/

theorem canRename_iff {x c : String} {b : Term} {avoid : List String} :
    canRename x b avoid c = true ↔
      c ≠ x ∧ c ∉ avoid ∧ c ∉ b.freeNames ∧ b.bindsFree c x = false := by
  simp [canRename, occursFree_eq_false, and_assoc]

/-- The fresh name is a letter to which the binder may be renamed. -/
theorem canRename_of_freshName {x c : String} {b : Term} {avoid : List String}
    (h : freshName x b avoid = .ok c) : c ∈ candidates x ∧ canRename x b avoid c = true := by
  unfold freshName at h
  split at h
  · rename_i d hfind
    cases h
    exact ⟨List.mem_of_find?_eq_some hfind, List.find?_some hfind⟩
  · cases h

end BinaryLambda.Term
