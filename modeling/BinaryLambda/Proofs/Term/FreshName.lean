import BinaryLambda.Proofs.Term.Environment
import BinaryLambda.Proofs.Term.Letters
import Mathlib.Data.List.Rotate

set_option autoImplicit false

/-!
# Terms: fresh names

The letters are tried for a binder in the cyclic order of the alphabet, from the letter
after the first place of its name on (`candidates_eq`).  A letter passes the tests on the
body if and only if the abstraction keeps its meaning when the letter takes the place of
the binder (`alike_rename_iff`): the tests neither let a capture through nor refuse a
letter without need.  So renaming a binder takes the first letter that works, and fails
only if none does (`alphaConvert_first`).
-/

namespace BinaryLambda.Term

open Environment

/-! ## The order of the letters -/

/-- The letter at a place of the alphabet, `a` coming again after `z`. -/
def letterAt (i : Nat) : String := (alphabet.get ⟨i % 26, Nat.mod_lt i (by decide)⟩).toString

/-- The first place of the alphabet at which a name is spelled. -/
def FirstPlace (name : String) (i : Nat) : Prop :=
  name.toList <+: alphabet.drop i ∧ ∀ j < i, ¬ name.toList <+: alphabet.drop j

/-- The search for another binder than `name` starts at this place: behind the first place
of the name, or at `a` if the alphabet does not spell it. -/
def StartsAt (name : String) (start : Nat) : Prop :=
  (∃ i, FirstPlace name i ∧ start = i + 1) ∨ (¬ name.toList <:+: alphabet ∧ start = 0)

theorem place?_eq_some {name cs : List Char} {i : Nat} (h : place? name cs = some i) :
    i + name.length ≤ cs.length ∧ name <+: cs.drop i ∧ ∀ j < i, ¬ name <+: cs.drop j := by
  fun_induction place? name cs generalizing i with
  | case1 hempty =>
      cases h
      rw [List.isEmpty_iff] at hempty
      subst hempty
      exact ⟨Nat.le_refl 0, List.prefix_refl [], fun j hj => absurd hj (Nat.not_lt_zero j)⟩
  | case2 => cases h
  | case3 c cs hspelled =>
      cases h
      rw [List.isPrefixOf_iff_prefix] at hspelled
      refine ⟨?_, hspelled, fun j hj => absurd hj (Nat.not_lt_zero j)⟩
      rw [Nat.zero_add]
      exact hspelled.length_le
  | case4 c cs hspelled ih =>
      obtain ⟨i, hi, rfl⟩ := Option.map_eq_some_iff.mp h
      rw [List.isPrefixOf_iff_prefix] at hspelled
      obtain ⟨hlength, hhere, hbefore⟩ := ih hi
      refine ⟨?_, hhere, ?_⟩
      · rw [List.length_cons]
        omega
      · intro j hj
        cases j with
        | zero => exact hspelled
        | succ j => exact hbefore j (Nat.lt_of_succ_lt_succ hj)

theorem place?_eq_none {name cs : List Char} (h : place? name cs = none) : ¬ name <:+: cs := by
  fun_induction place? name cs with
  | case1 => cases h
  | case2 hempty =>
      rw [List.infix_nil]
      rintro rfl
      exact hempty rfl
  | case3 => cases h
  | case4 c cs hspelled ih =>
      rw [Option.map_eq_none_iff] at h
      rw [List.isPrefixOf_iff_prefix] at hspelled
      rw [List.infix_cons_iff, not_or]
      exact ⟨hspelled, ih h⟩

theorem rotated_alphabet {start : Nat} (h : start ≤ 26) :
    (alphabet.drop start ++ alphabet.take start).map Char.toString =
      (List.range 26).map fun k => letterAt (start + k) := by
  rw [← List.rotate_eq_drop_append_take h]
  apply List.ext_getElem
  · rw [List.length_map, List.length_rotate, List.length_map, List.length_range]
    rfl
  · intro k _ _
    rw [List.getElem_map, List.getElem_rotate, List.getElem_map, List.getElem_range, letterAt,
      List.get_eq_getElem, Nat.add_comm start k]
    rfl

/-- The letters that are tried for a binder, in order. -/
theorem candidates_eq (name : String) :
    ∃ start, StartsAt name start ∧
      candidates name = (List.range 26).map fun k => letterAt (start + k) := by
  rw [candidates]
  cases hplace : place? name.toList alphabet with
  | none => exact ⟨0, .inr ⟨place?_eq_none hplace, rfl⟩, rotated_alphabet (Nat.zero_le 26)⟩
  | some i =>
      obtain ⟨hlength, hhere, hbefore⟩ := place?_eq_some hplace
      have hle : i + 1 ≤ 26 := by
        cases hname : name.toList with
        | nil =>
            -- the empty name is spelled everywhere, so its first place is the front
            have hi : i = 0 := by
              by_contra hne
              rw [hname] at hbefore
              exact hbefore 0 (Nat.pos_of_ne_zero hne) List.nil_prefix
            rw [hi]
            decide
        | cons c cs =>
            rw [hname, List.length_cons] at hlength
            have halphabet : alphabet.length = 26 := rfl
            omega
      exact ⟨i + 1, .inl ⟨i, ⟨hhere, hbefore⟩, rfl⟩, rotated_alphabet hle⟩

/-- Every letter is tried, and nothing else. -/
theorem mem_candidates {name c : String} : c ∈ candidates name ↔ IsLetter c := by
  refine ⟨isLetter_of_mem_candidates, fun h => ?_⟩
  obtain ⟨d, hd, rfl⟩ := List.mem_map.mp h
  have hturned : ∀ n, d ∈ alphabet.drop n ++ alphabet.take n := by
    intro n
    rw [← List.take_append_drop n alphabet, List.mem_append] at hd
    exact List.mem_append.mpr hd.symm
  exact List.mem_map_of_mem (hturned _)

/-! ## The first letter that passes -/

/-- The fresh name is the first of the letters that passes. -/
theorem freshName_eq_ok_iff {name : String} {body : Term} {avoid : List String} {start : Nat}
    (hstart : candidates name = (List.range 26).map fun k => letterAt (start + k)) {c : String} :
    freshName name body avoid = .ok c ↔
      ∃ k < 26, c = letterAt (start + k) ∧ canRename name body avoid c = true ∧
        ∀ i < k, canRename name body avoid (letterAt (start + i)) = false := by
  have hfind : freshName name body avoid = .ok c ↔
      (candidates name).find? (canRename name body avoid) = some c := by
    rw [freshName]
    cases (candidates name).find? (canRename name body avoid) <;> simp
  rw [hfind, List.find?_eq_some_iff_getElem, hstart]
  simp only [List.length_map, List.length_range, List.getElem_map, List.getElem_range,
    Bool.not_eq_true']
  constructor
  · rintro ⟨hc, k, hk, rfl, hbefore⟩
    exact ⟨k, hk, rfl, hc, hbefore⟩
  · rintro ⟨k, hk, rfl, hc, hbefore⟩
    exact ⟨hc, k, hk, rfl, hbefore⟩

/-- There is no fresh name if and only if no letter passes. -/
theorem freshName_eq_error_iff {name : String} {body : Term} {avoid : List String}
    {e : NoFreshName} :
    freshName name body avoid = .error e ↔
      e = ⟨name, body⟩ ∧ ∀ c, IsLetter c → canRename name body avoid c = false := by
  rw [freshName]
  cases hfind : (candidates name).find? (canRename name body avoid) with
  | some c =>
      have hpasses := List.find?_some hfind
      have hletter := isLetter_of_mem_candidates (List.mem_of_find?_eq_some hfind)
      refine iff_of_false (by simp) fun h => ?_
      rw [h.2 c hletter] at hpasses
      cases hpasses
  | none =>
      rw [List.find?_eq_none] at hfind
      dsimp only
      rw [Except.error.injEq, eq_comm]
      refine (and_iff_left fun c hc => ?_).symm
      exact Bool.eq_false_iff.mpr (hfind c (mem_candidates.mpr hc))

/-! ## What the tests on the body mean -/

/-- Two terms that have the same index term in every context with their free names. -/
def Alike (t u : Term) : Prop :=
  ∀ context, t.freeNames ⊆ context → u.freeNames ⊆ context → t.indexed context = u.indexed context

theorem alike_iff_translate_eq {t u : Term} :
    Alike t u ↔ ∀ context, t.freeNames ⊆ context → u.freeNames ⊆ context →
      t.translate (ofContext context) = u.translate (ofContext context) := by
  refine forall_congr' fun context => forall_congr' fun ht => forall_congr' fun hu => ?_
  rw [indexed_eq_ok ht, indexed_eq_ok hu, Except.ok.injEq]

/-- Terms are alike if and only if they differ in the names of their binders only. -/
theorem alike_iff_alphaEq {t u : Term} : Alike t u ↔ AlphaEq t u := by
  rw [alike_iff_translate_eq]
  constructor
  · intro h
    have ht : t.freeNames ⊆ t.freeNames ++ u.freeNames := List.subset_append_left _ _
    have hu : u.freeNames ⊆ t.freeNames ++ u.freeNames := List.subset_append_right _ _
    exact alphaEq_of_translate_eq ht hu (h _ ht hu)
  · exact fun h context _ _ => h.translate_eq (ofContext context)

/-! A renaming that gives the index term of the abstraction was not captured. -/

/-- The names that are free in a term stand for the same in two environments in which it
translates to the same index term. -/
theorem env_eq_of_translate_eq {t : Term} {env env' : Environment}
    (h : t.translate env = t.translate env') {y : String} (hy : y ∈ t.freeNames) :
    env y = env' y := by
  induction t generalizing env env' with
  | var x =>
      rw [mem_freeNames_var.mp hy]
      exact h
  | lam p b ih =>
      rw [mem_freeNames_lam] at hy
      rw [translate_lam, translate_lam, IndexTerm.lam.injEq] at h
      have hpushed := ih h hy.2
      rw [push_of_ne hy.1, push_of_ne hy.1] at hpushed
      exact IndexTerm.lift_inj.mp hpushed
  | app f a ihf iha =>
      rw [translate_app, translate_app, IndexTerm.app.injEq] at h
      rcases mem_freeNames_app.mp hy with hy | hy
      · exact ihf h.1 hy
      · exact iha h.2 hy

/-- If a renamed term translates to the index term of the term itself although both names
stand for something else, then the new name is not free and captures nothing. -/
theorem passes_of_translate_rename {t : Term} {x c : String} {env env' : Environment}
    (hne : c ≠ x) (hx : env x ≠ env' x) (hc : env c ≠ env' c)
    (h : (t.rename x c).translate env' = t.translate env) :
    c ∉ t.freeNames ∧ t.bindsFree c x = false := by
  induction t generalizing env env' with
  | var y =>
      refine ⟨?_, rfl⟩
      rw [mem_freeNames_var]
      rintro rfl
      rw [rename, if_neg hne] at h
      exact hc h.symm
  | lam p b ih =>
      rw [mem_freeNames_lam]
      by_cases hpx : p = x
      · -- Nothing is renamed beneath a binder of the old name.
        subst hpx
        rw [rename_lam_old] at h
        refine ⟨fun hfree => ?_, bindsFree_lam_of_eq c p b⟩
        exact hc (env_eq_of_translate_eq h.symm (mem_freeNames_lam.mpr hfree))
      by_cases hpc : p = c
      · -- Nothing is renamed beneath a binder of the new name, so nothing had to be.
        subst hpc
        rw [rename_lam_new] at h
        refine ⟨fun hfree => hfree.1 rfl, ?_⟩
        rw [bindsFree_lam_binder hpx, occursFree_eq_false]
        intro hfree
        exact hx (env_eq_of_translate_eq h.symm (mem_freeNames_lam.mpr ⟨Ne.symm hpx, hfree⟩))
      · rw [rename_lam_of_ne hpx hpc, translate_lam, translate_lam, IndexTerm.lam.injEq] at h
        have hpushed : ∀ y, y ≠ p → env y ≠ env' y → push p env y ≠ push p env' y := by
          intro y hy hdiffer heq
          rw [push_of_ne hy, push_of_ne hy] at heq
          exact hdiffer (IndexTerm.lift_inj.mp heq)
        obtain ⟨hfree, hbinds⟩ := ih (hpushed x (Ne.symm hpx) hx) (hpushed c (Ne.symm hpc) hc) h
        rw [bindsFree_lam_of_ne hpx hpc]
        exact ⟨fun hmem => hfree hmem.2, hbinds⟩
  | app f a ihf iha =>
      rw [rename, translate_app, translate_app, IndexTerm.app.injEq] at h
      obtain ⟨hf, hbf⟩ := ihf hx hc h.1
      obtain ⟨ha, hba⟩ := iha hx hc h.2
      exact ⟨notMem_freeNames_app hf ha, bindsFree_app_eq_false.mpr ⟨hbf, hba⟩⟩

/-- **The tests on the body are exact.**  Another binder keeps the meaning of an
abstraction if and only if it is not free in the body and captures nothing there. -/
theorem alike_rename_iff {x c : String} (hne : c ≠ x) (b : Term) :
    Alike (lam c (b.rename x c)) (lam x b) ↔ c ∉ b.freeNames ∧ b.bindsFree c x = false := by
  rw [alike_iff_translate_eq]
  constructor
  · intro h
    have heq := h _ (List.subset_append_left _ (lam x b).freeNames) (List.subset_append_right _ _)
    rw [translate_lam, translate_lam, IndexTerm.lam.injEq] at heq
    -- Each of the two names stands for a binder of its own abstraction only.
    have hdiffer : ∀ i, IndexTerm.bound 0 ≠ (IndexTerm.bound i).lift 0 := by
      intro i heq
      rw [IndexTerm.lift_bound, if_neg (Nat.not_lt_zero i)] at heq
      cases heq
    apply passes_of_translate_rename hne _ _ heq
    · rw [push_self, push_of_ne (Ne.symm hne)]
      exact hdiffer _
    · rw [push_self, push_of_ne hne]
      exact (hdiffer _).symm
  · rintro ⟨hfree, hbinds⟩ context _ _
    rw [translate_lam, translate_lam, translate_rename_push hfree hbinds]

/-! ## Renaming a binder -/

/-- A letter by which the binder `name` of `body` can be replaced: another one that is not
to be avoided and with which the abstraction keeps its meaning. -/
structure Usable (name : String) (body : Term) (avoid : List String) (c : String) : Prop where
  isLetter : IsLetter c
  ne : c ≠ name
  notMem : c ∉ avoid
  alike : Alike (lam c (body.rename name c)) (lam name body)

theorem usable_iff_canRename {name c : String} {body : Term} {avoid : List String} :
    Usable name body avoid c ↔ IsLetter c ∧ canRename name body avoid c = true := by
  rw [canRename_iff]
  constructor
  · rintro ⟨hletter, hne, havoid, halike⟩
    exact ⟨hletter, hne, havoid, (alike_rename_iff hne body).mp halike⟩
  · rintro ⟨hletter, hne, havoid, hpasses⟩
    exact ⟨hletter, hne, havoid, (alike_rename_iff hne body).mpr hpasses⟩

theorem isLetter_letterAt (i : Nat) : IsLetter (letterAt i) :=
  isLetter_toString (List.get_mem _ _)

/-- **A binder takes the first letter that works.**  The letters are tried from the one
after the first place of the binder's name on, and around the alphabet; the conversion
fails if and only if none of them works.  For any other name, the tests on the body tell
whether the abstraction keeps its meaning. -/
theorem alphaConvert_first (name : String) (body : Term) (avoid : List String) :
    ∃ start, StartsAt name start ∧
      (∀ t, alphaConvert name body avoid = .ok t ↔
        ∃ k < 26, Usable name body avoid (letterAt (start + k)) ∧
          (∀ i < k, ¬ Usable name body avoid (letterAt (start + i))) ∧
          t = lam (letterAt (start + k)) (body.rename name (letterAt (start + k)))) ∧
      (∀ e, alphaConvert name body avoid = .error e ↔
        e = ⟨name, body⟩ ∧ ∀ c, ¬ Usable name body avoid c) ∧
      ∀ c, c ≠ name →
        (AlphaEq (lam c (body.rename name c)) (lam name body) ↔
          body.occursFree c = false ∧ body.bindsFree c name = false) := by
  obtain ⟨start, hstart, hcandidates⟩ := candidates_eq name
  refine ⟨start, hstart, fun t => ?_, fun e => ?_, fun c hc => ?_⟩
  · rw [alphaConvert, map_eq_ok_iff]
    simp only [freshName_eq_ok_iff hcandidates, usable_iff_canRename, isLetter_letterAt, true_and,
      Bool.not_eq_true]
    constructor
    · rintro ⟨c, ⟨k, hk, rfl, hpasses, hbefore⟩, rfl⟩
      exact ⟨k, hk, hpasses, hbefore, rfl⟩
    · rintro ⟨k, hk, hpasses, hbefore, rfl⟩
      exact ⟨_, ⟨k, hk, rfl, hpasses, hbefore⟩, rfl⟩
  · rw [alphaConvert, map_eq_error_iff, freshName_eq_error_iff]
    simp only [usable_iff_canRename, not_and, Bool.not_eq_true]
  · rw [← alike_iff_alphaEq, alike_rename_iff hc, occursFree_eq_false]

/-- The inner binder would capture `y`, so the outer one becomes `z`. -/
example : alphaConvert "x" (lam "y" (var "x")) [] = .ok (lam "z" (lam "y" (var "z"))) := by cbv

end BinaryLambda.Term
