import BinaryLambda.Proofs.Outcome
import BinaryLambda.Proofs.Term.Environment
import BinaryLambda.Term.Reduction

set_option autoImplicit false

/-!
# Terms: what a substitution does

`SubstitutesTo` has one rule for each way in which a substitution succeeds, so a
property of its results is proved by an induction on the rules although the
substitution goes on in a renamed body.  The main statement is that a
substitution of names is one of indices (`indexed_substitute`): whatever names
are in the context, the value is not captured.
-/

namespace BinaryLambda.Term

open Environment

/-! ## The ways to succeed -/

/-- The substitution of `value` for `x` succeeds. -/
inductive SubstitutesTo (value : Term) (x : String) : Term → Term → Prop where
  | hit : SubstitutesTo value x (var x) value
  | other {y : String} : y ≠ x → SubstitutesTo value x (var y) (var y)
  /-- the binder hides `x` -/
  | shadowed (b : Term) : SubstitutesTo value x (lam x b) (lam x b)
  /-- the binder is not free in the value -/
  | under {p : String} {b r : Term} : p ≠ x → p ∉ value.freeNames →
      SubstitutesTo value x b r → SubstitutesTo value x (lam p b) (lam p r)
  /-- the binder is free in the value, but there is nothing to replace -/
  | absent {p : String} {b : Term} : p ≠ x → p ∈ value.freeNames → x ∉ b.freeNames →
      SubstitutesTo value x (lam p b) (lam p b)
  /-- the binder is renamed first -/
  | renamed {p q : String} {b r : Term} : p ≠ x → p ∈ value.freeNames → x ∈ b.freeNames →
      freshName p b (x :: value.freeNames) = .ok q →
      SubstitutesTo value x (b.rename p q) r → SubstitutesTo value x (lam p b) (lam q r)
  | app {f f' a a' : Term} : SubstitutesTo value x f f' → SubstitutesTo value x a a' →
      SubstitutesTo value x (app f a) (app f' a')

/-- A substitution that succeeds does so by the rules. -/
theorem substitutesTo_of_substitute {value t r : Term} {x : String}
    (h : substitute value x t = .ok r) : SubstitutesTo value x t r := by
  fun_induction substitute value x t generalizing r with
  | case1 y =>
      cases h
      by_cases hy : y = x
      · subst hy
        rw [if_pos rfl]
        exact .hit
      · rw [if_neg hy]
        exact .other hy
  | case2 b =>
      cases h
      exact .shadowed b
  | case3 p b hx hp ih =>
      obtain ⟨r, hr, rfl⟩ := map_eq_ok_iff.mp h
      exact .under hx (occursFree_eq_false.mp hp) (ih hr)
  | case4 p b hx hp hb =>
      cases h
      rw [Bool.not_eq_false, occursFree_eq_true] at hp
      exact .absent hx hp (occursFree_eq_false.mp hb)
  | case5 => cases h
  | case6 p b hx hp hb q hq ih =>
      obtain ⟨r, hr, rfl⟩ := map_eq_ok_iff.mp h
      rw [Bool.not_eq_false, occursFree_eq_true] at hp hb
      exact .renamed hx hp hb hq (ih hr)
  | case7 => cases h
  | case8 f a f' hf ihf iha =>
      obtain ⟨a', ha, rfl⟩ := map_eq_ok_iff.mp h
      exact .app (ihf hf) (iha ha)

/-- What the rules allow is what a substitution gives. -/
theorem SubstitutesTo.substitute_eq {value t r : Term} {x : String}
    (h : SubstitutesTo value x t r) : substitute value x t = .ok r := by
  induction h with
  | hit => rw [substitute, if_pos rfl]
  | other hy => rw [substitute, if_neg hy]
  | shadowed b => rw [substitute, if_pos rfl]
  | under hx hp _ ih =>
      rw [substitute, if_neg hx, if_pos (occursFree_eq_false.mpr hp), ih]
      rfl
  | absent hx hp hb =>
      have hfree := occursFree_eq_true.mpr hp
      rw [substitute, if_neg hx, if_neg (by simp [hfree]), if_pos (occursFree_eq_false.mpr hb)]
  | renamed hx hp hb hq _ ih =>
      have hfree := occursFree_eq_true.mpr hp
      have hbody := occursFree_eq_true.mpr hb
      rw [substitute, if_neg hx, if_neg (by simp [hfree]), if_neg (by simp [hbody]), hq]
      dsimp only
      rw [ih]
      rfl
  | app _ _ ihf iha =>
      rw [substitute, ihf, iha]
      rfl

/-- Where there is nothing to replace, nothing changes. -/
theorem SubstitutesTo.of_notMem {x : String} {t : Term} (h : x ∉ t.freeNames) (value : Term) :
    SubstitutesTo value x t t := by
  induction t with
  | var y =>
      rw [mem_freeNames_var] at h
      exact .other (Ne.symm h)
  | lam p b ih =>
      rw [mem_freeNames_lam, not_and] at h
      by_cases hx : p = x
      · subst hx
        exact .shadowed b
      · have hb : x ∉ b.freeNames := h (Ne.symm hx)
        by_cases hp : p ∈ value.freeNames
        · exact .absent hx hp hb
        · exact .under hx hp (ih hb)
  | app f a ihf iha =>
      rw [mem_freeNames_app, not_or] at h
      exact .app (ihf h.1) (iha h.2)

/-! ## Free names -/

/-- The free names of the result: those of the body apart from `x`, and those of
the value if there is something to replace. -/
theorem SubstitutesTo.mem_freeNames {value t r : Term} {x : String} (h : SubstitutesTo value x t r)
    (y : String) :
    y ∈ r.freeNames ↔
      (x ∈ t.freeNames ∧ y ∈ value.freeNames) ∨ (y ≠ x ∧ y ∈ t.freeNames) := by
  induction h with
  | hit => simp only [mem_freeNames_var]; grind
  | other hy => simp only [mem_freeNames_var]; grind
  | shadowed b => simp only [mem_freeNames_lam]; grind
  | under hx hp _ ih => simp only [mem_freeNames_lam, ih]; grind
  | absent hx hp hb => simp only [mem_freeNames_lam]; grind
  | renamed hx hp hb hq _ ih =>
      obtain ⟨hne, havoid, hfree, hbinds⟩ := canRename_iff.mp (canRename_of_freshName hq).2
      rw [List.mem_cons, not_or] at havoid
      simp only [mem_freeNames_lam, ih, mem_freeNames_rename hbinds]
      grind
  | app _ _ ihf iha => simp only [mem_freeNames_app, ihf, iha]; grind

/-! ## Index terms -/

/-- In an environment, a substitution is an assignment. -/
theorem SubstitutesTo.translate {value t r : Term} {x : String} (h : SubstitutesTo value x t r)
    (env : Environment) :
    r.translate env = t.translate (assign x (value.translate env) env) := by
  induction h generalizing env with
  | hit => rw [translate_var, assign_self]
  | other hy => rw [translate_var, translate_var, assign_of_ne hy]
  | shadowed b => rw [translate_lam, translate_lam, push_assign_self]
  | under hx hp _ ih =>
      rw [translate_lam, translate_lam, ih, push_assign_of_ne hx, translate_push hp]
  | absent hx _ hb =>
      rw [translate_lam, translate_lam, push_assign_of_ne hx, translate_assign hb]
  | @renamed p q b r hx _ _ hq _ ih =>
      obtain ⟨_, havoid, hfree, hbinds⟩ := canRename_iff.mp (canRename_of_freshName hq).2
      rw [List.mem_cons, not_or] at havoid
      -- The new binder takes the place of the old one, and no free name of the body
      -- sees the change.
      rw [translate_lam, translate_lam, ih, translate_push havoid.2, ← push_assign_of_ne havoid.1,
        translate_rename_push hfree hbinds]
  | app _ _ ihf iha => rw [translate_app, translate_app, ihf, iha]

/-- The index of a name that is assigned to, in the context that has it in front. -/
theorem substitute_ofContext (x y : String) (v : IndexTerm) (context : List String) :
    (ofContext (x :: context) y).substitute 0 v = assign x v (ofContext context) y := by
  rw [← push_ofContext, IndexTerm.substitute_eq_subst]
  by_cases hy : y = x
  · rw [hy, push_self, assign_self]
    rfl
  · rw [push_of_ne hy, assign_of_ne hy]
    rfl

/-- A term in which a name is assigned to, as a substitution of an index. -/
theorem translate_assign_ofContext (t : Term) (x : String) (v : IndexTerm)
    (context : List String) :
    t.translate (assign x v (ofContext context)) =
      (t.translate (ofContext (x :: context))).substitute 0 v := by
  rw [IndexTerm.substitute_eq_subst, subst_translate]
  apply translate_congr
  intro y _
  rw [← IndexTerm.substitute_eq_subst, substitute_ofContext]

theorem SubstitutesTo.freeNames_subset {value t r : Term} {x : String} {context : List String}
    (h : SubstitutesTo value x t r) (hvalue : value.freeNames ⊆ context)
    (ht : t.freeNames ⊆ x :: context) : r.freeNames ⊆ context := by
  intro y hy
  rcases (h.mem_freeNames y).mp hy with ⟨_, hy⟩ | ⟨hne, hy⟩
  · exact hvalue hy
  · exact (List.mem_cons.mp (ht hy)).resolve_left hne

/-- Against a context that has the names in question, the index term of the result
is the substitution of the value's index term for the innermost index. -/
theorem SubstitutesTo.indexed {value t r : Term} {x : String} {context : List String}
    (h : SubstitutesTo value x t r) (hvalue : value.freeNames ⊆ context)
    (ht : t.freeNames ⊆ x :: context) :
    r.indexed context = .ok ((t.translate (ofContext (x :: context))).substitute 0
      (value.translate (ofContext context))) := by
  rw [indexed_eq_ok (h.freeNames_subset hvalue ht), h.translate, translate_assign_ofContext]

/-- **Substitution captures nothing.**  In every context that has the free names
of the value and those of the body apart from the replaced one, the result of a
substitution has the index term in which the value's index term takes the place
of the innermost index.  Its free names are those of the body apart from the
replaced one, and those of the value if there is something to replace.  So the
contraction of a redex of names is the contraction of its index term. -/
theorem indexed_substitute {value body : Term} {x : String} {context : List String}
    (hvalue : value.freeNames ⊆ context) (hbody : body.freeNames ⊆ x :: context) :
    ∃ v b, value.indexed context = .ok v ∧ body.indexed (x :: context) = .ok b ∧
      (∀ r, substitute value x body = .ok r →
        r.indexed context = .ok (b.substitute 0 v) ∧
          ∀ y, y ∈ r.freeNames ↔
            (x ∈ body.freeNames ∧ y ∈ value.freeNames) ∨ (y ≠ x ∧ y ∈ body.freeNames)) ∧
      (app (lam x body) value).indexed context = .ok (.app (.lam b) v) ∧
      (∀ r, contract x body value = .ok r → r.indexed context = .ok (b.substitute 0 v)) := by
  have hredex : (app (lam x body) value).freeNames ⊆ context :=
    freeNames_app_subset_iff.mpr ⟨freeNames_lam_subset_iff.mpr hbody, hvalue⟩
  refine ⟨_, _, indexed_eq_ok hvalue, indexed_eq_ok hbody, ?_, ?_, ?_⟩
  · intro r hr
    have hsubst := substitutesTo_of_substitute hr
    exact ⟨hsubst.indexed hvalue hbody, hsubst.mem_freeNames⟩
  · rw [indexed_eq_ok hredex, translate_app, translate_lam, push_ofContext]
  · intro r hr
    exact (substitutesTo_of_substitute hr).indexed hvalue hbody

/-- The binder `y` would capture the value's `y`, and `z` would be captured by the
inner binder, so the binder becomes `a`. -/
theorem indexed_substitute_capture :
    ∃ v b, (app (var "x") (var "y")).indexed ["y", "x", "y"] = .ok v ∧
      (lam "y" (lam "z" (app (var "x") (app (var "y") (var "z"))))).indexed
        ["x", "y", "x", "y"] = .ok b ∧
      (lam "a" (lam "z" (app (app (var "x") (var "y")) (app (var "a") (var "z"))))).indexed
        ["y", "x", "y"] = .ok (b.substitute 0 v) := by
  have hvalue : (app (var "x") (var "y")).freeNames ⊆ ["y", "x", "y"] := by decide
  have hbody : (lam "y" (lam "z" (app (var "x") (app (var "y") (var "z"))))).freeNames ⊆
      "x" :: ["y", "x", "y"] := by decide
  obtain ⟨v, b, hv, hb, hr, _⟩ := indexed_substitute hvalue hbody
  exact ⟨v, b, hv, hb, (hr _ (by cbv)).1⟩

end BinaryLambda.Term
