import BinaryLambda.Proofs.IndexTerm.Confluence

set_option autoImplicit false

/-!
# Index terms: standardization

Every reduction can be made standard: contractions at the head come first, and
what is left is done inside, again in a standard way (`Reduces.standard`).

Contracting all outermost redexes contracts the one at the head and more.  What
it does besides can be done later just as well, because a head contraction and
any other reduction can be completed to a square (`HeadContracts.square`).
So the outermost contractions, repeated, find the normal form of every term that
has one (`exists_iterate_contractOutermost_eq`), although they also work on
arguments that are to be thrown away.
-/

namespace BinaryLambda.IndexTerm

open Relation

/-! ## Contractions at the head -/

/-- The redex at the head of a row of applications is contracted. -/
inductive HeadContracts : IndexTerm → IndexTerm → Prop where
  | redex (b a : IndexTerm) : HeadContracts (app (lam b) a) (b.substitute 0 a)
  | function {f f' : IndexTerm} (a : IndexTerm) : HeadContracts f f' →
      HeadContracts (app f a) (app f' a)

theorem HeadContracts.contracts {t u : IndexTerm} (h : HeadContracts t u) : Contracts t u := by
  induction h with
  | redex b a => exact .redex b a
  | function a _ ih => exact .function a ih

theorem HeadContracts.ne_lam {t u : IndexTerm} (h : HeadContracts t u) (b : IndexTerm) :
    t ≠ lam b := by
  cases h <;> nofun

theorem HeadContracts.subst {t u : IndexTerm} (h : HeadContracts t u) (σ : Nat → IndexTerm) :
    HeadContracts (t.subst σ) (u.subst σ) := by
  induction h with
  | redex b a =>
      rw [subst_substitute]
      exact .redex _ _
  | function a _ ih => exact .function _ ih

theorem HeadContracts.lift {t u : IndexTerm} (h : HeadContracts t u) (c : Nat) :
    HeadContracts (t.lift c) (u.lift c) := by
  rw [lift_eq_subst t, lift_eq_subst u]
  exact h.subst _

/-! ## Standard reductions -/

/-- A reduction that contracts at the head first and then inside the parts, each
part again in this way. -/
inductive Standard : IndexTerm → IndexTerm → Prop where
  | bound (n : Nat) : Standard (bound n) (bound n)
  | lam {b b' : IndexTerm} : Standard b b' → Standard (lam b) (lam b')
  | app {f f' a a' : IndexTerm} : Standard f f' → Standard a a' → Standard (app f a) (app f' a')
  | head {t u v : IndexTerm} : HeadContracts t u → Standard u v → Standard t v

theorem Standard.refl (t : IndexTerm) : Standard t t := by
  induction t with
  | bound n => exact .bound n
  | lam b ih => exact .lam ih
  | app f a ihf iha => exact .app ihf iha

theorem Standard.reduces {t u : IndexTerm} (h : Standard t u) : Reduces t u := by
  induction h with
  | bound n => exact .refl
  | lam _ ih => exact ih.lam
  | app _ _ ihf iha => exact ihf.app iha
  | head hstep _ ih => exact .head hstep.contracts ih

theorem Standard.lift {t u : IndexTerm} (h : Standard t u) (c : Nat) :
    Standard (t.lift c) (u.lift c) := by
  induction h generalizing c with
  | bound n => exact .bound _
  | lam _ ih => exact .lam (ih (c + 1))
  | app _ _ ihf iha => exact .app (ihf c) (iha c)
  | head hstep _ ih => exact .head (hstep.lift c) (ih c)

theorem Standard.beneath {σ τ : Nat → IndexTerm} (h : ∀ n, Standard (σ n) (τ n)) (n : Nat) :
    Standard (beneath σ n) (beneath τ n) :=
  beneath_rel (.bound 0) (fun ht => ht.lift 0) h n

theorem Standard.subst {t u : IndexTerm} (h : Standard t u) {σ τ : Nat → IndexTerm}
    (hσ : ∀ n, Standard (σ n) (τ n)) : Standard (t.subst σ) (u.subst τ) := by
  induction h generalizing σ τ with
  | bound n => exact hσ n
  | lam _ ih => exact .lam (ih (Standard.beneath hσ))
  | app _ _ ihf iha => exact .app (ihf hσ) (iha hσ)
  | head hstep _ ih => exact .head (hstep.subst σ) (ih hσ)

theorem Standard.substitute {b b' a a' : IndexTerm} (hb : Standard b b') (ha : Standard a a') :
    Standard (b.substitute 0 a) (b'.substitute 0 a') := by
  rw [substitute_eq_subst, substitute_eq_subst]
  exact hb.subst (plug_rel .bound ha)

/-- Two standard reductions of the parts of an application, and the contraction
of the redex that they make, are a standard reduction. -/
theorem Standard.redex {f b' a a' : IndexTerm} (hf : Standard f (.lam b')) (ha : Standard a a') :
    Standard (.app f a) (b'.substitute 0 a') := by
  generalize hg : IndexTerm.lam b' = g at hf
  induction hf with
  | bound n => cases hg
  | lam hb _ =>
      cases hg
      exact .head (.redex _ _) (hb.substitute ha)
  | app _ _ _ _ => cases hg
  | head hstep _ ih => exact .head (.function a hstep) (ih hg)

/-- A standard reduction may be continued by any contraction. -/
theorem Standard.contracts {t u v : IndexTerm} (h : Standard t u) (hstep : Contracts u v) :
    Standard t v := by
  induction h generalizing v with
  | bound n => cases hstep
  | lam _ ih =>
      cases hstep with
      | body hb => exact .lam (ih hb)
  | app hf ha ihf iha =>
      cases hstep with
      | redex b a => exact hf.redex ha
      | function _ hf' => exact .app (ihf hf') ha
      | argument _ ha' => exact .app hf (iha ha')
  | head hhead _ ih => exact .head hhead (ih hstep)

/-- Every reduction can be made standard. -/
theorem Reduces.standard {t u : IndexTerm} (h : Reduces t u) : Standard t u := by
  induction h with
  | refl => exact .refl t
  | tail _ hstep ih => exact ih.contracts hstep

/-! ## Head contractions against other reductions -/

theorem HeadContracts.square_parallel {t u t' : IndexTerm} (h : HeadContracts t u)
    (ht : Parallel t t') : ∃ u', Parallel u u' ∧ (t' = u' ∨ HeadContracts t' u') := by
  induction h generalizing t' with
  | redex b a =>
      cases ht with
      | app hf ha =>
          obtain ⟨b', rfl, hb⟩ := hf.of_lam
          exact ⟨_, hb.substitute ha, .inr (.redex _ _)⟩
      | redex hb ha => exact ⟨_, hb.substitute ha, .inl rfl⟩
  | @function f f' a hhead ih =>
      cases ht with
      | app hf ha =>
          obtain ⟨g, hg, heq | hstep⟩ := ih hf
          · exact ⟨_, .app hg ha, .inl (by rw [heq])⟩
          · exact ⟨_, .app hg ha, .inr (.function _ hstep)⟩
      | redex _ _ => exact absurd rfl (hhead.ne_lam _)

/-- After any reduction, the redex at the head is still there, or what its
contraction leaves has been reached. -/
theorem HeadContracts.square {t u t' : IndexTerm} (h : HeadContracts t u) (ht : Reduces t t') :
    ∃ u', Reduces u u' ∧ (t' = u' ∨ HeadContracts t' u') := by
  rw [reduces_iff_parallel] at ht
  induction ht with
  | refl => exact ⟨u, .refl, .inr h⟩
  | @tail m t' _ hstep ih =>
      obtain ⟨u₁, hu₁, rfl | hhead⟩ := ih
      · exact ⟨t', hu₁.trans hstep.reduces, .inl rfl⟩
      · obtain ⟨u₂, hu₂, hlast⟩ := hhead.square_parallel hstep
        exact ⟨u₂, hu₁.trans hu₂.reduces, hlast⟩

/-- Contracting all outermost redexes contracts the one at the head, and more. -/
theorem HeadContracts.reduces_contractOutermost {t u : IndexTerm} (h : HeadContracts t u) :
    Reduces u t.contractOutermost := by
  induction h with
  | redex b a => exact .refl
  | function a hhead ih =>
      rw [contractOutermost_app hhead.ne_lam]
      exact ih.app (IndexTerm.reduces_contractOutermost a)

/-! ## The outermost contractions find normal forms -/

/-- What an application reduces to, if its function side never becomes an
abstraction. -/
theorem Reduces.of_app {f a u : IndexTerm} (hf : ∀ b, ¬ Reduces f (.lam b))
    (h : Reduces (.app f a) u) :
    ∃ f' a', u = .app f' a' ∧ Reduces f f' ∧ Reduces a a' := by
  induction h with
  | refl => exact ⟨f, a, rfl, .refl, .refl⟩
  | tail _ hstep ih =>
      obtain ⟨g, c, rfl, hg, hc⟩ := ih
      cases hstep with
      | redex b _ => exact absurd hg (hf b)
      | function _ hg' => exact ⟨_, c, rfl, hg.tail hg', hc⟩
      | argument _ hc' => exact ⟨g, _, rfl, hg, hc.tail hc'⟩

theorem iterate_contractOutermost_lam (k : Nat) (b : IndexTerm) :
    contractOutermost^[k] (lam b) = lam (contractOutermost^[k] b) := by
  induction k generalizing b with
  | zero => rfl
  | succ k ih => simp only [Function.iterate_succ_apply, contractOutermost_lam, ih]

theorem iterate_contractOutermost_app (k : Nat) {f : IndexTerm} (a : IndexTerm)
    (hf : ∀ b, ¬ Reduces f (lam b)) :
    contractOutermost^[k] (app f a) = app (contractOutermost^[k] f) (contractOutermost^[k] a) := by
  induction k generalizing f a with
  | zero => rfl
  | succ k ih =>
      have hne : ∀ b, f ≠ lam b := by
        rintro b rfl
        exact hf b .refl
      have hnext : ∀ b, ¬ Reduces f.contractOutermost (lam b) := by
        intro b h
        exact hf b ((reduces_contractOutermost f).trans h)
      simp only [Function.iterate_succ_apply, contractOutermost_app hne, ih _ hnext]

/-- The induction is on the standard reduction to the normal form, and it speaks
of every term that the reduced one reduces to: an outermost contraction takes the
head contraction at hand and some others that are not at hand. -/
theorem Standard.exists_iterate_eq {t n : IndexTerm} (h : Standard t n) (hn : n.Normal)
    {u : IndexTerm} (hu : Reduces t u) : ∃ k, contractOutermost^[k] u = n := by
  induction h generalizing u with
  | bound m => exact ⟨0, hu.eq_of_normal hn⟩
  | lam _ ih =>
      obtain ⟨b, rfl, hb⟩ := hu.of_lam
      obtain ⟨k, hk⟩ := ih hn.body hb
      refine ⟨k, ?_⟩
      rw [iterate_contractOutermost_lam, hk]
  | @app f f' a a' hf ha ihf iha =>
      have hnever : ∀ b, ¬ Reduces f (.lam b) := by
        intro b hb
        obtain ⟨c, hc, _⟩ := (hb.to_normal hf.reduces hn.function).of_lam
        exact hn.function_ne_lam c hc
      obtain ⟨g, c, rfl, hg, hc⟩ := hu.of_app hnever
      obtain ⟨k, hk⟩ := ihf hn.function hg
      obtain ⟨m, hm⟩ := iha hn.argument hc
      have hnever' : ∀ b, ¬ Reduces g (.lam b) := by
        intro b hb
        exact hnever b (hg.trans hb)
      have hfun : contractOutermost^[k + m] g = f' := by
        rw [Nat.add_comm, Function.iterate_add_apply, hk,
          iterate_contractOutermost_of_normal m hn.function]
      have harg : contractOutermost^[k + m] c = a' := by
        rw [Function.iterate_add_apply, hm, iterate_contractOutermost_of_normal k hn.argument]
      refine ⟨k + m, ?_⟩
      rw [iterate_contractOutermost_app _ _ hnever', hfun, harg]
  | head hhead _ ih =>
      obtain ⟨u', hu', rfl | hnext⟩ := hhead.square hu
      · exact ih hn hu'
      · obtain ⟨k, hk⟩ := ih hn (hu'.trans hnext.reduces_contractOutermost)
        exact ⟨k + 1, by rw [Function.iterate_succ_apply, hk]⟩

/-- Contracting all outermost redexes again and again reaches the normal form of
every term that has one. -/
theorem exists_iterate_contractOutermost_eq {t n : IndexTerm} (h : Reduces t n) (hn : n.Normal) :
    ∃ k, contractOutermost^[k] t = n :=
  h.standard.exists_iterate_eq hn .refl

end BinaryLambda.IndexTerm
