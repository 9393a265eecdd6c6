import BinaryLambda.Proofs.Surface.Reading
import BinaryLambda.Proofs.Term.Arithmetic
import BinaryLambda.Proofs.Term.FreshName
import BinaryLambda.Proofs.Term.Indexing
import BinaryLambda.Proofs.Term.Reading

set_option autoImplicit false

/-!
# Terms: which terms are Church numerals

The numeral of a number is the term of a text with as many openings, `(f`, as closings
(`ofText_churchText`).  A term is taken for a numeral by the names along its spine.  This finds
exactly the terms with the index term of a numeral whose two outer binders have different
names (`churchValue?_recognizes`).  If they have the same name, the spine does not show which
binder a variable belongs to, and the term is not taken for a numeral even if its index term
is that of zero.
-/

namespace BinaryLambda.Term

open Environment

/-! ## The text of a numeral -/

/-- The text of the numeral of `n`. -/
def churchText (n : Nat) : String :=
  "λf.λx." ++ (String.join (List.replicate n "(f") ++ ("x" ++ String.join (List.replicate n ")")))

theorem spell_applications (n : Nat) (rest : List Token) :
    Token.spell ((applications "f" "x" n).tokensOnto rest) =
      String.join (List.replicate n "(f") ++
        ("x" ++ (String.join (List.replicate n ")") ++ Token.spell rest)) := by
  induction n generalizing rest with
  | zero => exact Token.spell_cons (.letter "x") rest
  | succ n ih =>
      have htokens : (applications "f" "x" (n + 1)).tokensOnto rest = .leftParen :: .letter "f" ::
          (applications "f" "x" n).tokensOnto (.rightParen :: rest) := rfl
      have hopening : "(f" = "(" ++ "f" := by decide
      rw [htokens, Token.spell_cons, Token.spell_cons, ih, Token.spell_cons, List.replicate_succ,
        String.join_cons, List.replicate_succ', String.join_append, hopening]
      simp only [String.append_assoc]
      rfl

theorem text_church (n : Nat) : (church n).text = churchText n := by
  have htokens : (church n).tokens = .lambda :: .letter "f" :: .dot :: .lambda :: .letter "x" ::
      .dot :: (applications "f" "x" n).tokensOnto [] := rfl
  have hbinders : "λf.λx." = "λ" ++ ("f" ++ ("." ++ ("λ" ++ ("x" ++ ".")))) := by decide
  rw [text, htokens, churchText, hbinders]
  simp only [Token.spell_cons, spell_applications, Token.spell_nil, String.append_empty,
    String.append_assoc]
  rfl

/-- The text of a numeral is read as the numeral. -/
theorem ofText_churchText (n : Nat) : ofText (churchText n) = .ok (church n) := by
  rw [← text_church]
  exact (lettered_church n).ofText_text

/-! ## The index term of a numeral -/

/-- The index term of the numeral of `n`. -/
def churchIndex (n : Nat) : IndexTerm := .lam (.lam (Nat.repeat (.app (.bound 1)) n (.bound 0)))

section

variable {context : List String} {f x : String} {b : Term} {n : Nat}

/-- Only a variable has the index of a name. -/
theorem translate_eq_ofContext_iff {t : Term} (hx : x ∈ context) :
    t.translate (ofContext context) = ofContext context x ↔ t = var x := by
  constructor
  · intro h
    cases t with
    | var y => rw [ofContext_injective hx h.symm]
    | lam p b => cases h
    | app g a => cases h
  · rintro rfl
    rfl

/-- The indices of two names show the names. -/
theorem translate_eq_repeat_iff (hf : f ∈ context) (hx : x ∈ context) :
    b.translate (ofContext context) =
        Nat.repeat (.app (ofContext context f)) n (ofContext context x) ↔
      b = applications f x n := by
  induction n generalizing b with
  | zero => exact translate_eq_ofContext_iff hx
  | succ n ih =>
      cases b with
      | var y => exact ⟨nofun, nofun⟩
      | lam p b => exact ⟨nofun, nofun⟩
      | app g a =>
          have hsides := and_congr (translate_eq_ofContext_iff (t := g) hf) (ih (b := a))
          rw [← IndexTerm.app.injEq, ← app.injEq] at hsides
          exact hsides

/-- Beneath two binders of different names, the index term shows the names of the spine. -/
theorem translate_eq_churchIndex_iff (h : f ≠ x) :
    (lam f (lam x b)).translate (ofContext []) = churchIndex n ↔ b = applications f x n := by
  have hx : ofContext [x, f] x = .bound 0 := congrArg IndexTerm.bound List.idxOf_cons_self
  have hf : ofContext [x, f] f = .bound 1 := by
    rw [ofContext, List.idxOf_cons_ne _ (Ne.symm h), List.idxOf_cons_self]
  rw [translate_lam, translate_lam, push_ofContext, push_ofContext, churchIndex,
    IndexTerm.lam.injEq, IndexTerm.lam.injEq, ← hx, ← hf]
  exact translate_eq_repeat_iff (.tail _ (.head _)) (.head _)

theorem translate_church (n : Nat) : (church n).translate (ofContext []) = churchIndex n :=
  (translate_eq_churchIndex_iff (by decide)).mpr rfl

end

/-! ## The names along the spine -/

theorem countApplications_eq_some_iff {f x : String} {b : Term} {n : Nat} :
    countApplications f x b = some n ↔ b = applications f x n := by
  constructor
  · intro h
    fun_induction countApplications f x b generalizing n with
    | case1 => cases h; rfl
    | case2 => cases h
    | case3 a ih =>
        obtain ⟨m, hm, rfl⟩ := Option.map_eq_some_iff.mp h
        rw [ih hm]
        rfl
    | case4 => cases h
    | case5 => cases h
  · rintro rfl
    exact countApplications_applications f x n

/-- The term is an abstraction of an abstraction, and their binders have different names. -/
def DistinctBinders (t : Term) : Prop := ∃ f x b, t = lam f (lam x b) ∧ f ≠ x

theorem churchValue?_eq_some_iff {t : Term} {n : Nat} :
    t.churchValue? = some n ↔ ∃ f x, t = lam f (lam x (applications f x n)) ∧ f ≠ x := by
  constructor
  · intro h
    unfold churchValue? at h
    split at h
    · rename_i f x b
      split_ifs at h with hne
      rw [countApplications_eq_some_iff] at h
      exact ⟨f, x, h ▸ rfl, hne⟩
    · cases h
  · rintro ⟨f, x, rfl, hne⟩
    rw [churchValue?, if_neg hne]
    exact countApplications_applications f x n

/-! ## Numerals up to the names of binders -/

theorem AlphaEq.freeNames_subset {t u : Term} (h : AlphaEq t u) : t.freeNames ⊆ u.freeNames := by
  intro y hy
  by_contra hyu
  -- What is assigned to the name matters to one term and not to the other.
  let env : Environment := fun _ => .bound 0
  have htranslate : t.translate (assign y (.bound 1) env) = t.translate env := by
    rw [h.translate_eq, h.translate_eq, translate_assign hyu]
  have hname := env_eq_of_translate_eq htranslate hy
  rw [assign_self] at hname
  cases hname

/-- The two terms have one index term, outside every binder. -/
def SameIndexTerm (t u : Term) : Prop := ∃ T, t.indexed [] = .ok T ∧ u.indexed [] = .ok T

theorem sameIndexTerm_church_iff {t : Term} {n : Nat} :
    SameIndexTerm t (church n) ↔
      t.freeNames ⊆ [] ∧ t.translate (ofContext []) = churchIndex n := by
  simp only [SameIndexTerm, indexed_eq_ok_iff, translate_church]
  constructor
  · rintro ⟨T, ⟨hfree, rfl⟩, -, hT⟩
    exact ⟨hfree, hT.symm⟩
  · rintro ⟨hfree, hT⟩
    exact ⟨_, ⟨hfree, hT⟩, freeNames_numeral_subset .., rfl⟩

/-- For numerals, the same index term means the same up to the names of binders. -/
theorem sameIndexTerm_church_iff_alphaEq {t : Term} {n : Nat} :
    SameIndexTerm t (church n) ↔ AlphaEq t (church n) := by
  have hchurch : (church n).freeNames ⊆ [] := freeNames_numeral_subset ..
  rw [sameIndexTerm_church_iff, ← translate_church]
  constructor
  · rintro ⟨hfree, heq⟩
    exact (alphaEq_iff_translate_eq hfree hchurch).mpr heq
  · intro h
    exact ⟨fun _ hy => hchurch (h.freeNames_subset hy), h.translate_eq _⟩

/-- A term is taken for the numeral of `n` if it has the index term of the numeral and
different binders. -/
theorem churchValue?_eq_some_iff_sameIndexTerm {t : Term} {n : Nat} :
    t.churchValue? = some n ↔ SameIndexTerm t (church n) ∧ DistinctBinders t := by
  rw [churchValue?_eq_some_iff, sameIndexTerm_church_iff]
  constructor
  · rintro ⟨f, x, rfl, hne⟩
    exact ⟨⟨freeNames_numeral_subset f x n, (translate_eq_churchIndex_iff hne).mpr rfl⟩,
      f, x, _, rfl, hne⟩
  · rintro ⟨⟨-, hindex⟩, f, x, b, rfl, hne⟩
    rw [(translate_eq_churchIndex_iff hne).mp hindex]
    exact ⟨f, x, rfl, hne⟩

/-- **Exactly the numerals are recognized.**  The numeral of every natural number is the term
of its text, and it is recognized as that number.  A term is recognized as `n` if and only if
its index term is that of the numeral of `n`, that is, if it differs from the numeral in the
names of binders only, and its two outer binders have different names.  No other term is
recognized. -/
theorem churchValue?_recognizes :
    (∀ n : Nat, (Value.int n).natural = .ok n ∧ ofText (churchText n) = .ok (church n) ∧
      (church n).churchValue? = some n) ∧
    ∀ t : Term, (∀ n, (SameIndexTerm t (church n) ↔ AlphaEq t (church n)) ∧
        (t.churchValue? = some n ↔ SameIndexTerm t (church n) ∧ DistinctBinders t)) ∧
      (t.churchValue? = none ↔ ∀ n, ¬ (SameIndexTerm t (church n) ∧ DistinctBinders t)) := by
  refine ⟨fun n => ⟨rfl, ofText_churchText n, countApplications_applications "f" "x" n⟩,
    fun t => ⟨fun n => ⟨sameIndexTerm_church_iff_alphaEq,
      churchValue?_eq_some_iff_sameIndexTerm⟩, ?_⟩⟩
  rw [Option.eq_none_iff_forall_ne_some]
  exact forall_congr' fun n => not_congr churchValue?_eq_some_iff_sameIndexTerm

end BinaryLambda.Term
