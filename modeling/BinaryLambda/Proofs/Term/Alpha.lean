import BinaryLambda.Proofs.Term.Environment
import Mathlib.Data.Fintype.EquivFin

set_option autoImplicit false

/-!
# Terms: the names of binders

Two terms are alpha-equivalent if they differ in the names of their binders only.
`AlphaEq` says this without indices, by the rule that an abstraction may take
any name that its body does not mention.  Against a context with all free names,
alpha-equivalent terms are those with the same index term
(`alphaEq_iff_translate_eq`).
-/

namespace BinaryLambda.Term

open Environment

/-- Every name that a term mentions, free or not. -/
def names : Term → List String
  | var x => [x]
  | lam p b => p :: b.names
  | app f a => f.names ++ a.names

/-- The term with `y` in the place of every free `x`. -/
def replaceFree (x y : String) : Term → Term
  | var z => var (if z = x then y else z)
  | lam p b => if p = x then lam p b else lam p (b.replaceFree x y)
  | app f a => app (f.replaceFree x y) (a.replaceFree x y)

/-- The least congruence in which an abstraction may change its binder to a name
that its body does not mention. -/
inductive AlphaEq : Term → Term → Prop where
  | rename (x : String) {y : String} {b : Term} : y ∉ b.names →
      AlphaEq (lam x b) (lam y (b.replaceFree x y))
  | lam (p : String) {b b' : Term} : AlphaEq b b' → AlphaEq (lam p b) (lam p b')
  | app {f f' a a' : Term} : AlphaEq f f' → AlphaEq a a' → AlphaEq (app f a) (app f' a')
  | refl (t : Term) : AlphaEq t t
  | symm {t u : Term} : AlphaEq t u → AlphaEq u t
  | trans {t u v : Term} : AlphaEq t u → AlphaEq u v → AlphaEq t v

/-! ## Names that a term does not mention -/

theorem freeNames_subset_names (t : Term) : t.freeNames ⊆ t.names := by
  induction t with
  | var x => exact fun _ h => h
  | lam p b ih => exact freeNames_lam_subset_iff.mpr fun _ hy => .tail _ (.tail _ (ih hy))
  | app f a ihf iha =>
      exact freeNames_app_subset_iff.mpr
        ⟨fun _ hy => List.mem_append_left _ (ihf hy), fun _ hy => List.mem_append_right _ (iha hy)⟩

/-- A name that is not mentioned captures nothing. -/
theorem bindsFree_eq_false_of_notMem_names {t : Term} {c : String} (h : c ∉ t.names) (x : String) :
    t.bindsFree c x = false := by
  induction t with
  | var y => rfl
  | lam p b ih =>
      rw [names, List.mem_cons, not_or] at h
      by_cases hx : p = x
      · rw [hx, bindsFree_lam_of_eq]
      · rw [bindsFree_lam_of_ne hx (Ne.symm h.1), ih h.2]
  | app f a ihf iha =>
      rw [names, List.mem_append, not_or] at h
      exact bindsFree_app_eq_false.mpr ⟨ihf h.1, iha h.2⟩

theorem replaceFree_eq_rename {t : Term} {y : String} (h : y ∉ t.names) (x : String) :
    t.replaceFree x y = t.rename x y := by
  induction t with
  | var z => rfl
  | lam p b ih =>
      rw [names, List.mem_cons, not_or] at h
      by_cases hx : p = x
      · rw [hx, rename_lam_old, replaceFree, if_pos rfl]
      · rw [rename_lam_of_ne hx (Ne.symm h.1), replaceFree, if_neg hx, ih h.2]
  | app f a ihf iha =>
      rw [names, List.mem_append, not_or] at h
      rw [replaceFree, rename, ihf h.1, iha h.2]

@[simp] theorem size_replaceFree (x y : String) (t : Term) :
    (t.replaceFree x y).size = t.size := by
  induction t with
  | var z => rfl
  | lam p b ih =>
      rw [replaceFree]
      split_ifs
      · rfl
      · rw [size, size, ih]
  | app f a ihf iha => rw [replaceFree, size, size, ihf, iha]

theorem freeNames_replaceFree_subset {b : Term} {x y : String} {context : List String}
    (h : y ∉ b.names) (hb : (lam x b).freeNames ⊆ context) :
    (b.replaceFree x y).freeNames ⊆ y :: context := by
  rw [replaceFree_eq_rename h]
  intro z hz
  rcases (mem_freeNames_rename (bindsFree_eq_false_of_notMem_names h x)).mp hz with
    ⟨rfl, _⟩ | hz
  · exact .head _
  · exact .tail _ (hb (mem_freeNames_lam.mpr hz))

/-- A binder may take a name that is not mentioned. -/
theorem translate_replaceFree {b : Term} {y : String} (h : y ∉ b.names) (x : String)
    (env : Environment) :
    (b.replaceFree x y).translate (push y env) = b.translate (push x env) := by
  rw [replaceFree_eq_rename h]
  exact translate_rename_push (fun hy => h (freeNames_subset_names b hy))
    (bindsFree_eq_false_of_notMem_names h x) env

/-! ## Alpha-equivalence and index terms -/

/-- Alpha-equivalent terms translate to the same index term. -/
theorem AlphaEq.translate_eq {t u : Term} (h : AlphaEq t u) (env : Environment) :
    t.translate env = u.translate env := by
  induction h generalizing env with
  | rename x hy => rw [translate_lam, translate_lam, translate_replaceFree hy]
  | lam p _ ih => rw [translate_lam, translate_lam, ih]
  | app _ _ ihf iha => rw [translate_app, translate_app, ihf, iha]
  | refl t => rfl
  | symm _ ih => rw [ih]
  | trans _ _ ih₁ ih₂ => rw [ih₁, ih₂]

theorem ofContext_injective {x y : String} {context : List String} (hx : x ∈ context)
    (h : ofContext context x = ofContext context y) : x = y := by
  rw [ofContext, ofContext, IndexTerm.bound.injEq] at h
  exact (List.idxOf_inj hx).mp h

/-- Terms with the same index term are alpha-equivalent.  Two abstractions are given
the same new binder first, so the induction is on the number of nodes, which a
renaming keeps. -/
theorem alphaEq_of_translate_eq {t u : Term} {context : List String}
    (ht : t.freeNames ⊆ context) (hu : u.freeNames ⊆ context)
    (h : t.translate (ofContext context) = u.translate (ofContext context)) : AlphaEq t u := by
  match t, u with
  | .var x, .var y =>
      rw [ofContext_injective (freeNames_var_subset_iff.mp ht) h]
      exact .refl _
  | .lam p b, .lam q c =>
      obtain ⟨z, hz⟩ := Infinite.exists_notMem_finset (b.names ++ c.names).toFinset
      rw [List.mem_toFinset, List.mem_append, not_or] at hz
      have hb : (b.replaceFree p z).freeNames ⊆ z :: context :=
        freeNames_replaceFree_subset hz.1 ht
      have hc : (c.replaceFree q z).freeNames ⊆ z :: context :=
        freeNames_replaceFree_subset hz.2 hu
      have hbodies : (b.replaceFree p z).translate (ofContext (z :: context)) =
          (c.replaceFree q z).translate (ofContext (z :: context)) := by
        rw [translate_lam, translate_lam, IndexTerm.lam.injEq] at h
        rw [← push_ofContext, translate_replaceFree hz.1, translate_replaceFree hz.2, h]
      have ih : AlphaEq (b.replaceFree p z) (c.replaceFree q z) :=
        alphaEq_of_translate_eq hb hc hbodies
      exact (AlphaEq.rename p hz.1).trans ((ih.lam z).trans (AlphaEq.rename q hz.2).symm)
  | .app f a, .app g c =>
      rw [freeNames_app_subset_iff] at ht hu
      rw [translate_app, translate_app, IndexTerm.app.injEq] at h
      exact (alphaEq_of_translate_eq ht.1 hu.1 h.1).app (alphaEq_of_translate_eq ht.2 hu.2 h.2)
termination_by t.size
decreasing_by all_goals simp only [size, size_replaceFree]; omega

/-- Against a context with all free names, alpha-equivalence is equality of index
terms. -/
theorem alphaEq_iff_translate_eq {t u : Term} {context : List String}
    (ht : t.freeNames ⊆ context) (hu : u.freeNames ⊆ context) :
    AlphaEq t u ↔ t.translate (ofContext context) = u.translate (ofContext context) :=
  ⟨fun h => h.translate_eq _, alphaEq_of_translate_eq ht hu⟩

end BinaryLambda.Term
