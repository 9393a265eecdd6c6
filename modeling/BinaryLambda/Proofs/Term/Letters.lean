import BinaryLambda.Proofs.Reducer
import BinaryLambda.Proofs.Term.Alpha
import BinaryLambda.Proofs.Term.Substitution

set_option autoImplicit false

/-!
# Terms: names that are letters

The text of a term is read back only if every name in it is one letter of the
alphabet.  Reduction keeps it so: a step mentions the names that were there and
letters that it took as fresh names, and no other (`names_of_step`), hence a run
from a term of letters leaves a term of letters (`Lettered.interpret`).
-/

namespace BinaryLambda

/-- A name that is one letter of the alphabet. -/
def IsLetter (name : String) : Prop := name ∈ alphabet.map Char.toString

instance (name : String) : Decidable (IsLetter name) :=
  inferInstanceAs (Decidable (name ∈ alphabet.map Char.toString))

theorem isLetter_toString {c : Char} (h : c ∈ alphabet) : IsLetter c.toString :=
  List.mem_map_of_mem h

/-- The alphabet is the range from `a` to `z`. -/
theorem mem_alphabet_iff {c : Char} : c ∈ alphabet ↔ 'a' ≤ c ∧ c ≤ 'z' := by
  constructor
  · intro h
    have hall : (alphabet.all fun d => decide ('a' ≤ d) && decide (d ≤ 'z')) = true := by decide
    have hc := List.all_eq_true.mp hall c h
    rwa [Bool.and_eq_true, decide_eq_true_eq, decide_eq_true_eq] at hc
  · rintro ⟨hlow, hhigh⟩
    have hcodes : ∀ n < 123, 97 ≤ n → Char.ofNat n ∈ alphabet := by decide
    have hlow' : 97 ≤ c.toNat := hlow
    have hhigh' : c.toNat ≤ 122 := hhigh
    rw [← Char.ofNat_toNat c]
    exact hcodes c.toNat (Nat.lt_succ_of_le hhigh') hlow'

namespace Term

/-- Every name in the term is one letter. -/
def Lettered (t : Term) : Prop := ∀ x ∈ t.names, IsLetter x

instance (t : Term) : Decidable t.Lettered :=
  inferInstanceAs (Decidable (∀ x ∈ t.names, IsLetter x))

@[simp] theorem lettered_var {x : String} : (var x).Lettered ↔ IsLetter x := by
  simp [Lettered, names]

@[simp] theorem lettered_lam {p : String} {b : Term} :
    (lam p b).Lettered ↔ IsLetter p ∧ b.Lettered := by
  simp [Lettered, names]

@[simp] theorem lettered_app {f a : Term} : (app f a).Lettered ↔ f.Lettered ∧ a.Lettered := by
  simp [Lettered, names, or_imp, forall_and]

/-! ## Fresh names -/

/-- The names that are tried for a binder are letters. -/
theorem isLetter_of_mem_candidates {x c : String} (h : c ∈ candidates x) : IsLetter c := by
  rw [candidates, List.mem_map] at h
  obtain ⟨d, hd, rfl⟩ := h
  apply isLetter_toString
  rcases List.mem_append.mp hd with hd | hd
  · exact List.mem_of_mem_drop hd
  · exact List.mem_of_mem_take hd

theorem isLetter_of_freshName {x c : String} {b : Term} {avoid : List String}
    (h : freshName x b avoid = .ok c) : IsLetter c :=
  isLetter_of_mem_candidates (canRename_of_freshName h).1

/-! ## Names that a reduction mentions -/

/-- A renaming mentions names of the term and the new name. -/
theorem names_of_rename (x c : String) (t : Term) :
    ∀ y ∈ (t.rename x c).names, y = c ∨ y ∈ t.names := by
  induction t with
  | var z =>
      rw [rename]
      split_ifs
      · exact fun y hy => .inl (List.mem_singleton.mp hy)
      · exact fun y hy => .inr hy
  | lam p b ih =>
      rw [rename]
      split_ifs
      · exact fun y hy => .inr hy
      · intro y hy
        rcases List.mem_cons.mp hy with rfl | hy
        · exact .inr (.head _)
        · exact (ih y hy).imp_right (.tail _)
  | app f a ihf iha =>
      intro y hy
      rcases List.mem_append.mp hy with hy | hy
      · exact (ihf y hy).imp_right (List.mem_append_left _)
      · exact (iha y hy).imp_right (List.mem_append_right _)

/-- A substitution mentions names of the value, names of the body and letters. -/
theorem SubstitutesTo.names {value t r : Term} {x : String} (h : SubstitutesTo value x t r) :
    ∀ y ∈ r.names, y ∈ value.names ∨ y ∈ t.names ∨ IsLetter y := by
  induction h with
  | hit => exact fun y hy => .inl hy
  | other _ => exact fun y hy => .inr (.inl hy)
  | shadowed b => exact fun y hy => .inr (.inl hy)
  | under _ _ _ ih =>
      intro y hy
      rcases List.mem_cons.mp hy with rfl | hy
      · exact .inr (.inl (.head _))
      · exact (ih y hy).imp_right (Or.imp_left (.tail _))
  | absent _ _ _ => exact fun y hy => .inr (.inl hy)
  | @renamed p q b r _ _ _ hq _ ih =>
      have hletter : IsLetter q := isLetter_of_freshName hq
      intro y hy
      rcases List.mem_cons.mp hy with rfl | hy
      · exact .inr (.inr hletter)
      rcases ih y hy with hy | hy | hy
      · exact .inl hy
      · rcases names_of_rename p q b y hy with rfl | hy
        · exact .inr (.inr hletter)
        · exact .inr (.inl (.tail _ hy))
      · exact .inr (.inr hy)
  | app _ _ ihf iha =>
      intro y hy
      rcases List.mem_append.mp hy with hy | hy
      · exact (ihf y hy).imp_right (Or.imp_left (List.mem_append_left _))
      · exact (iha y hy).imp_right (Or.imp_left (List.mem_append_right _))

/-- A step mentions names of the term and letters. -/
theorem names_of_step {t u : Term} (h : t.step = .ok u) :
    ∀ y ∈ u.names, y ∈ t.names ∨ IsLetter y := by
  fun_induction step t generalizing u with
  | case1 x =>
      cases h
      exact fun y hy => .inl hy
  | case2 p b ih =>
      obtain ⟨b', hb, rfl⟩ := map_eq_ok_iff.mp h
      intro y hy
      rcases List.mem_cons.mp hy with rfl | hy
      · exact .inl (.head _)
      · exact (ih hb y hy).imp_left (.tail _)
  | case3 p b a =>
      intro y hy
      rcases (substitutesTo_of_substitute h).names y hy with hy | hy | hy
      · exact .inl (List.mem_append_right _ hy)
      · exact .inl (List.mem_append_left _ (.tail _ hy))
      · exact .inr hy
  | case4 => cases h
  | case5 f a _ f' hf ihf iha =>
      obtain ⟨a', ha, rfl⟩ := map_eq_ok_iff.mp h
      intro y hy
      rcases List.mem_append.mp hy with hy | hy
      · exact (ihf hf y hy).imp_left (List.mem_append_left _)
      · exact (iha ha y hy).imp_left (List.mem_append_right _)

/-! ## Terms of letters under reduction -/

theorem Lettered.step {t u : Term} (ht : t.Lettered) (h : t.step = .ok u) : u.Lettered := by
  intro y hy
  rcases names_of_step h y hy with hy | hy
  · exact ht y hy
  · exact hy

theorem Lettered.steps {n : Nat} {t u : Term} (ht : t.Lettered) (h : Steps n t u) :
    u.Lettered := by
  induction h with
  | zero t => exact ht
  | succ _ hstep _ ih => exact ih (ht.step hstep)

/-- A run from a term of letters leaves a term of letters. -/
theorem Lettered.interpret {t r : Term} {cap : Nat} (ht : t.Lettered)
    (h : t.interpret cap = .ok r) : r.Lettered := by
  obtain ⟨_, hsteps, _⟩ := steps_of_interpret h
  exact ht.steps hsteps

end Term

end BinaryLambda
