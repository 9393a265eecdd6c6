import BinaryLambda.Proofs.IndexTerm.Reduction
import BinaryLambda.Proofs.Reducer
import BinaryLambda.Proofs.Term.Alpha
import BinaryLambda.Proofs.Term.Substitution
import Mathlib.Order.Bounds.Basic

set_option autoImplicit false

/-!
# Terms: reduction on index terms

On index terms, a step contracts all outermost redexes at once and needs no names
(`step_spec`).  A run repeats this until no redex is left or its cap is
reached, so the names of binders have no say in what it computes
(`interpret_simulates`).
-/

namespace BinaryLambda.Term

open Environment IndexTerm

/-! ## Redexes -/

/-- A function side makes a redex or it does not. -/
theorem eq_lam_or_ne_lam (t : Term) : (∃ p b, t = lam p b) ∨ ∀ p b, t ≠ lam p b := by
  cases t with
  | var x => exact .inr nofun
  | lam p b => exact .inl ⟨p, b, rfl⟩
  | app f a => exact .inr nofun

theorem translate_ne_lam {t : Term} (h : ∀ p b, t ≠ lam p b) (context : List String)
    (b : IndexTerm) : t.translate (ofContext context) ≠ .lam b := by
  cases t with
  | var x => nofun
  | lam p b => exact absurd rfl (h p b)
  | app f a => nofun

theorem hasRedex_app {f : Term} (h : ∀ p b, f ≠ lam p b) (a : Term) :
    (app f a).hasRedex = (f.hasRedex || a.hasRedex) := by
  cases f with
  | var x => rfl
  | lam p b => exact absurd rfl (h p b)
  | app g c => rfl

theorem step_app {f : Term} (h : ∀ p b, f ≠ lam p b) (a : Term) :
    (app f a).step =
      match f.step with
      | .error e => .error e
      | .ok f' => a.step.map (app f') := by
  cases f with
  | var x => rfl
  | lam p b => exact absurd rfl (h p b)
  | app g c => rfl

/-- A term has the redexes of its index term. -/
theorem hasRedex_iff_translate (t : Term) (context : List String) :
    t.hasRedex = true ↔ (t.translate (ofContext context)).HasRedex := by
  induction t generalizing context with
  | var x => exact ⟨nofun, nofun⟩
  | lam p b ih =>
      rw [hasRedex, ih (p :: context), translate_lam, push_ofContext]
      exact ⟨.body, fun h => by cases h; assumption⟩
  | app f a ihf iha =>
      rcases f.eq_lam_or_ne_lam with ⟨p, b, rfl⟩ | hne
      · exact ⟨fun _ => .redex _ _, fun _ => rfl⟩
      · rw [hasRedex_app hne, Bool.or_eq_true, ihf context, iha context, translate_app]
        constructor
        · rintro (hf | ha)
          · exact .function _ hf
          · exact .argument _ ha
        · intro h
          generalize hg : f.translate (ofContext context) = g at h
          cases h with
          | redex b _ => exact absurd hg (translate_ne_lam hne context b)
          | function _ hf => exact .inl hf
          | argument _ ha => exact .inr ha

theorem hasRedex_eq_false_iff_translate (t : Term) (context : List String) :
    t.hasRedex = false ↔ (t.translate (ofContext context)).Normal := by
  rw [IndexTerm.Normal, ← hasRedex_iff_translate, Bool.not_eq_true]

/-- A term without redex stays as it is. -/
theorem step_of_normal {t : Term} (h : t.hasRedex = false) : t.step = .ok t := by
  induction t with
  | var x => rfl
  | lam p b ih =>
      rw [step, ih h]
      rfl
  | app f a ihf iha =>
      have hne : ∀ p b, f ≠ lam p b := by
        rintro p b rfl
        cases h
      rw [hasRedex_app hne, Bool.or_eq_false_iff] at h
      rw [step_app hne, ihf h.1, iha h.2]
      rfl

/-! ## Steps -/

/-- A step contracts the outermost redexes, and it frees no name. -/
theorem step_spec {t u : Term} (h : t.step = .ok u) :
    u.freeNames ⊆ t.freeNames ∧
      ∀ context, u.translate (ofContext context) =
        (t.translate (ofContext context)).contractOutermost := by
  induction t generalizing u with
  | var x =>
      cases h
      exact ⟨List.Subset.refl _, fun _ => rfl⟩
  | lam p b ih =>
      obtain ⟨b', hb, rfl⟩ := map_eq_ok_iff.mp h
      obtain ⟨hfree, htranslate⟩ := ih hb
      constructor
      · intro y hy
        rw [mem_freeNames_lam] at hy ⊢
        exact ⟨hy.1, hfree hy.2⟩
      · intro context
        rw [translate_lam, translate_lam, push_ofContext, htranslate, contractOutermost_lam]
  | app f a ihf iha =>
      rcases f.eq_lam_or_ne_lam with ⟨p, b, rfl⟩ | hne
      · have hsubst : SubstitutesTo a p b u := substitutesTo_of_substitute h
        constructor
        · exact hsubst.freeNames_subset (fun y hy => mem_freeNames_app.mpr (.inr hy))
            (freeNames_lam_subset_iff.mp fun y hy => mem_freeNames_app.mpr (.inl hy))
        · intro context
          rw [hsubst.translate, translate_assign_ofContext, translate_app, translate_lam,
            push_ofContext, contractOutermost_redex]
      · rw [step_app hne] at h
        cases hf : f.step with
        | error e =>
            rw [hf] at h
            cases h
        | ok f' =>
            rw [hf] at h
            obtain ⟨a', ha, rfl⟩ := map_eq_ok_iff.mp h
            obtain ⟨hfreef, htranslatef⟩ := ihf hf
            obtain ⟨hfreea, htranslatea⟩ := iha ha
            constructor
            · intro y hy
              rw [mem_freeNames_app] at hy ⊢
              exact hy.imp (@hfreef y) (@hfreea y)
            · intro context
              rw [translate_app, translate_app,
                contractOutermost_app (translate_ne_lam hne context), htranslatef, htranslatea]

/-- What a number of steps does to the index term: all of them start from a term with a
redex. -/
theorem Steps.spec {n : Nat} {t u : Term} (h : Steps n t u) :
    u.freeNames ⊆ t.freeNames ∧
      ∀ context, u.translate (ofContext context) =
          contractOutermost^[n] (t.translate (ofContext context)) ∧
        ∀ i < n, (contractOutermost^[i] (t.translate (ofContext context))).HasRedex := by
  induction h with
  | zero t => exact ⟨List.Subset.refl _, fun _ => ⟨rfl, nofun⟩⟩
  | succ hredex hstep _ ih =>
      obtain ⟨hfree, hnext⟩ := step_spec hstep
      obtain ⟨hfree', hspec⟩ := ih
      refine ⟨fun y hy => hfree (hfree' hy), ?_⟩
      intro context
      obtain ⟨htranslate, hbefore⟩ := hspec context
      rw [hnext] at htranslate hbefore
      refine ⟨htranslate, ?_⟩
      intro i hi
      cases i with
      | zero => exact (hasRedex_iff_translate _ context).mp hredex
      | succ i => exact hbefore i (Nat.lt_of_succ_lt_succ hi)

/-! ## Runs -/

/-- A run that returns left the index term that its steps make of the first one, and
their number is the least one that reaches the cap or leaves no redex. -/
theorem reduction_spec {t r : Term} {context : List String} {cap : Nat}
    (hfree : t.freeNames ⊆ context) (h : t.interpret cap = .ok r) :
    r.freeNames ⊆ context ∧ (t.reduction cap).reducer.tree = r ∧
      r.translate (ofContext context) =
        contractOutermost^[(t.reduction cap).reducer.steps] (t.translate (ofContext context)) ∧
      IsLeast {j | j = cap ∨ (contractOutermost^[j] (t.translate (ofContext context))).Normal}
        (t.reduction cap).reducer.steps := by
  obtain ⟨j, hsteps, hle, hreducer, hend⟩ := steps_of_interpret h
  obtain ⟨hsub, hspec⟩ := hsteps.spec
  obtain ⟨htranslate, hbefore⟩ := hspec context
  rw [hreducer]
  refine ⟨fun y hy => hfree (hsub hy), rfl, htranslate, ?_, ?_⟩
  · rw [hasRedex_eq_false_iff_translate r context, htranslate] at hend
    exact hend
  · rintro i (rfl | hnormal)
    · exact hle
    · by_contra hlt
      exact hnormal (hbefore i (Nat.lt_of_not_le hlt))

/-- **Runs simulate one strategy on index terms.**  Let `T` be the index term of a
term.  The term has a redex if and only if `T` has one, and without one its step is
the term itself.  A run that returns leaves the index term that is obtained from
`T` by contracting all outermost redexes, as often as the run took steps, and this is
the least number that is the cap or leaves no redex.  Runs from alpha-equivalent
terms that both return leave alpha-equivalent terms after equally many steps, and
both are normal or neither is. -/
theorem interpret_simulates {t : Term} {context : List String} (hfree : t.freeNames ⊆ context) :
    ∃ T, t.indexed context = .ok T ∧ (t.hasRedex = true ↔ T.HasRedex) ∧
      (t.hasRedex = false → t.step = .ok t) ∧
      (∀ cap r, t.interpret cap = .ok r →
        r.indexed context = .ok (contractOutermost^[(t.reduction cap).reducer.steps] T) ∧
          IsLeast {j | j = cap ∨ (contractOutermost^[j] T).Normal}
            (t.reduction cap).reducer.steps) ∧
      (∀ t' cap r r', AlphaEq t t' → t.interpret cap = .ok r → t'.interpret cap = .ok r' →
        AlphaEq r r' ∧ (t.reduction cap).reducer.steps = (t'.reduction cap).reducer.steps ∧
          (t.reduction cap).reducer.isNormal calculus =
            (t'.reduction cap).reducer.isNormal calculus) := by
  refine ⟨_, indexed_eq_ok hfree, hasRedex_iff_translate t context, step_of_normal, ?_, ?_⟩
  · intro cap r hr
    obtain ⟨hsub, _, htranslate, hleast⟩ := reduction_spec hfree hr
    exact ⟨by rw [indexed_eq_ok hsub, htranslate], hleast⟩
  · intro t' cap r r' halpha hr hr'
    -- The two terms are compared against a context for the free names of both.
    obtain ⟨hsub, htree, htranslate, hleast⟩ :=
      reduction_spec (List.subset_append_left t.freeNames t'.freeNames) hr
    obtain ⟨hsub', htree', htranslate', hleast'⟩ :=
      reduction_spec (List.subset_append_right t.freeNames t'.freeNames) hr'
    rw [← halpha.translate_eq] at htranslate' hleast'
    have hcount := hleast.unique hleast'
    have heq : r.translate (ofContext (t.freeNames ++ t'.freeNames)) =
        r'.translate (ofContext (t.freeNames ++ t'.freeNames)) := by
      rw [htranslate, htranslate', hcount]
    have hredex : r.hasRedex = r'.hasRedex := by
      rw [Bool.eq_iff_iff, hasRedex_iff_translate r, heq, ← hasRedex_iff_translate r']
    refine ⟨alphaEq_of_translate_eq hsub hsub' heq, hcount, ?_⟩
    rw [Reducer.isNormal, Reducer.isNormal, htree, htree']
    simp only [calculus, hredex]

/-- The binder `y` would capture the argument, so the run renames it to `z`; the same term
with the binder `a` keeps it. -/
theorem interpret_simulates_capture :
    ∃ T, (app (lam "x" (lam "y" (app (var "x") (var "y")))) (var "y")).indexed ["y"] = .ok T ∧
      (lam "z" (app (var "y") (var "z"))).indexed ["y"] = .ok (contractOutermost^[1] T) ∧
      AlphaEq (lam "z" (app (var "y") (var "z"))) (lam "a" (app (var "y") (var "a"))) := by
  have hfree : (app (lam "x" (lam "y" (app (var "x") (var "y")))) (var "y")).freeNames ⊆ ["y"] := by
    decide
  have hr : (app (lam "x" (lam "y" (app (var "x") (var "y")))) (var "y")).interpret 5 =
      .ok (lam "z" (app (var "y") (var "z"))) := by cbv
  have hsteps : ((app (lam "x" (lam "y" (app (var "x") (var "y")))) (var "y")).reduction
      5).reducer.steps = 1 := by cbv
  have hr' : (app (lam "x" (lam "a" (app (var "x") (var "a")))) (var "y")).interpret 5 =
      .ok (lam "a" (app (var "y") (var "a"))) := by cbv
  have halpha : AlphaEq (app (lam "x" (lam "y" (app (var "x") (var "y")))) (var "y"))
      (app (lam "x" (lam "a" (app (var "x") (var "a")))) (var "y")) :=
    ((AlphaEq.rename "y" (by decide)).lam "x").app (.refl _)
  obtain ⟨T, hT, _, _, hrun, hsame⟩ := interpret_simulates hfree
  have hindexed := (hrun 5 _ hr).1
  rw [hsteps] at hindexed
  exact ⟨T, hT, hindexed, (hsame _ 5 _ _ halpha hr hr').1⟩

end BinaryLambda.Term
