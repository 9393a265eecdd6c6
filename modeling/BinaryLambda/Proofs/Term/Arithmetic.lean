import BinaryLambda.Proofs.Term.HeadReduction
import BinaryLambda.Surface.Combinator
import BinaryLambda.Term.Church

set_option autoImplicit false

/-!
# Terms: arithmetic on Church numerals

A Church numeral applies its first argument to the second, as often as it says
(`headSteps_church`).  From this the runs of the successor, the sum, the product and the
test for zero are followed, names included: no binder is renamed on the way.
-/

namespace BinaryLambda.Term

open Relation

/-! ## Repeated application -/

/-- The argument `a` under `n` applications of `f`. -/
def applyTimes (f : Term) (n : Nat) (a : Term) : Term := Nat.repeat (app f) n a

theorem applyTimes_succ (f : Term) (n : Nat) (a : Term) :
    f.applyTimes (n + 1) a = app f (f.applyTimes n a) := rfl

theorem applications_eq (f x : String) (n : Nat) :
    applications f x n = (var f).applyTimes n (var x) := rfl

theorem applyTimes_add (f : Term) (m n : Nat) (a : Term) :
    f.applyTimes (m + n) a = f.applyTimes m (f.applyTimes n a) := by
  induction m with
  | zero => rw [Nat.zero_add]; rfl
  | succ m ih => rw [Nat.succ_add, applyTimes_succ, applyTimes_succ, ih]

theorem applications_add (f x : String) (m n : Nat) :
    applications f x (m + n) = (var f).applyTimes m (applications f x n) :=
  applyTimes_add (var f) m n (var x)

theorem mem_freeNames_applyTimes {f a : Term} {n : Nat} {y : String}
    (h : y ∈ (f.applyTimes n a).freeNames) : y ∈ f.freeNames ∨ y ∈ a.freeNames := by
  induction n with
  | zero => exact .inr h
  | succ n ih =>
      rw [applyTimes_succ, mem_freeNames_app] at h
      exact h.elim .inl ih

theorem freeNames_applications_subset (f x : String) (n : Nat) :
    (applications f x n).freeNames ⊆ [x, f] := by
  intro y hy
  rcases mem_freeNames_applyTimes hy with h | h
  · exact mem_freeNames_var.mp h ▸ .tail _ (.head _)
  · exact mem_freeNames_var.mp h ▸ .head _

theorem SubstitutesTo.applyTimes {value f f' a a' : Term} {x : String}
    (hf : SubstitutesTo value x f f') (ha : SubstitutesTo value x a a') (n : Nat) :
    SubstitutesTo value x (f.applyTimes n a) (f'.applyTimes n a') := by
  induction n with
  | zero => exact ha
  | succ n ih => exact .app hf ih

theorem hasRedex_applyTimes_var (x : String) (n : Nat) (a : Term) :
    ((var x).applyTimes n a).hasRedex = a.hasRedex := by
  induction n with
  | zero => rfl
  | succ n ih =>
      rw [applyTimes_succ, hasRedex_app (f := var x) nofun, ih]
      rfl

/-- A run in the innermost argument of a variable. -/
theorem Reaches.applyTimes_var {t u : Term} (h : Reaches t u) (x : String) (n : Nat) :
    Reaches ((var x).applyTimes n t) ((var x).applyTimes n u) := by
  induction n with
  | zero => exact h
  | succ n ih => exact ih.app_var x

/-! ## Numerals -/

/-- The variables of a numeral belong to its two binders, whatever their names are. -/
theorem freeNames_numeral_subset (f x : String) (n : Nat) :
    (lam f (lam x (applications f x n))).freeNames ⊆ [] := by
  rw [freeNames_lam_subset_iff, freeNames_lam_subset_iff]
  exact freeNames_applications_subset f x n

theorem notMem_freeNames_church (x : String) (n : Nat) : x ∉ (church n).freeNames :=
  fun h => List.not_mem_nil (freeNames_numeral_subset "f" "x" n h)

theorem hasRedex_church (n : Nat) : (church n).hasRedex = false :=
  hasRedex_applyTimes_var "f" n (var "x")

/-- The first argument takes the place of the variable that is applied. -/
theorem headStep_church {a : Term} (ha : "x" ∉ a.freeNames) (n : Nat) :
    HeadStep (app (church n) a) (lam "x" (a.applyTimes n (var "x"))) :=
  .contract (.under (by decide) ha (SubstitutesTo.applyTimes .hit (.other (by decide)) n))

theorem headStep_applyTimes {a : Term} (ha : "x" ∉ a.freeNames) (n : Nat) (b : Term) :
    HeadStep (app (lam "x" (a.applyTimes n (var "x"))) b) (a.applyTimes n b) :=
  .contract ((SubstitutesTo.of_notMem ha b).applyTimes .hit n)

/-- A numeral applies its first argument to the second. -/
theorem headSteps_church {a b : Term} (ha : "x" ∉ a.freeNames) (hb : b.hasRedex = false)
    (n : Nat) : ReflTransGen HeadStep (app (app (church n) a) b) (a.applyTimes n b) :=
  .head ((headStep_church ha n).app hb) (.single (headStep_applyTimes ha n b))

/-! ## Successor -/

theorem reaches_successor (n : Nat) :
    Reaches (app Combinator.successor.term (church n)) (church (n + 1)) := by
  have hf := notMem_freeNames_church "f" n
  have hx := notMem_freeNames_church "x" n
  have hfirst : HeadStep (app Combinator.successor.term (church n))
      (lam "f" (lam "x" (app (var "f") (app (app (church n) (var "f")) (var "x"))))) :=
    .contract (.under (by decide) hf (.under (by decide) hx
      (.app (.other (by decide)) (.app (.app .hit (.other (by decide))) (.other (by decide))))))
  have hbody : Reaches (app (app (church n) (var "f")) (var "x")) (applications "f" "x" n) :=
    .of_headSteps (headSteps_church (by decide) rfl n) (.refl _)
  exact .of_headStep hfirst (((hbody.app_var "f").lam "x").lam "f")

/-! ## Sum -/

/-- The variable applied as often as a numeral says, under the binder of the argument. -/
theorem headStep_church_var (n : Nat) :
    HeadStep (app (church n) (var "f")) (lam "x" (applications "f" "x" n)) :=
  headStep_church (by decide) n

theorem reaches_sum (m n : Nat) :
    Reaches (app (app Combinator.sum.term (church m)) (church n)) (church (m + n)) := by
  have hclosed := notMem_freeNames_church
  have hfirst : HeadStep (app Combinator.sum.term (church m))
      (lam "n" (lam "f" (lam "x" (app (app (church m) (var "f"))
        (app (app (var "n") (var "f")) (var "x")))))) :=
    .contract (.under (by decide) (hclosed _ m) (.under (by decide) (hclosed _ m)
      (.under (by decide) (hclosed _ m) (.app (.app .hit (.other (by decide)))
        (.of_notMem (by decide) _)))))
  have hsecond : HeadStep (app (lam "n" (lam "f" (lam "x" (app (app (church m) (var "f"))
        (app (app (var "n") (var "f")) (var "x")))))) (church n))
      (lam "f" (lam "x" (app (app (church m) (var "f"))
        (app (app (church n) (var "f")) (var "x"))))) :=
    .contract (.under (by decide) (hclosed _ n) (.under (by decide) (hclosed _ n)
      (.app (.of_notMem (by simp [hclosed]) _)
        (.app (.app .hit (.other (by decide))) (.other (by decide))))))
  -- Both numerals take the variable in one step, and the sum is unfolded from the left.
  have hargument : HeadStep (app (app (church n) (var "f")) (var "x"))
      (app (lam "x" (applications "f" "x" n)) (var "x")) := (headStep_church_var n).app rfl
  have hbody : Reaches (app (app (church m) (var "f")) (app (app (church n) (var "f")) (var "x")))
      (applications "f" "x" (m + n)) := by
    apply Reaches.of_headStep_both (headStep_church_var m) hargument
    apply Reaches.of_headStep (headStep_applyTimes (by decide) m _)
    rw [applications_add]
    exact (Reaches.of_headStep (headStep_applyTimes (by decide) n _) (.refl _)).applyTimes_var "f" m
  exact .of_headStep (hfirst.app (hasRedex_church n))
    (.of_headStep hsecond ((hbody.lam "x").lam "f"))

/-! ## Product -/

/-- A step unfolds the numeral in every application of it to a variable. -/
theorem step_applyTimes_church (m n : Nat) :
    ((app (church n) (var "f")).applyTimes m (var "x")).step =
      .ok ((lam "x" (applications "f" "x" n)).applyTimes m (var "x")) := by
  induction m with
  | zero => rfl
  | succ m ih =>
      rw [applyTimes_succ, step_app (headStep_church_var n).ne_lam,
        (headStep_church_var n).step_eq, ih]
      rfl

/-- The unfolded numerals contribute one after the other. -/
theorem reaches_applyTimes_unfolded (m n : Nat) :
    Reaches ((lam "x" (applications "f" "x" n)).applyTimes m (var "x"))
      (applications "f" "x" (m * n)) := by
  induction m with
  | zero =>
      rw [Nat.zero_mul]
      exact .refl _
  | succ m ih =>
      rw [Nat.succ_mul, Nat.add_comm (m * n), applications_add]
      exact .of_headStep (headStep_applyTimes (by decide) n _) (ih.applyTimes_var "f" n)

/-- One step unfolds all the numerals, and then they contribute. -/
theorem reaches_applyTimes_church (m n : Nat) :
    Reaches ((app (church n) (var "f")).applyTimes m (var "x")) (applications "f" "x" (m * n)) := by
  cases m with
  | zero =>
      rw [Nat.zero_mul]
      exact .refl _
  | succ m =>
      have hredex : ((app (church n) (var "f")).applyTimes (m + 1) (var "x")).hasRedex = true := by
        rw [applyTimes_succ, hasRedex_app (headStep_church_var n).ne_lam,
          (headStep_church_var n).hasRedex, Bool.true_or]
      apply (reaches_applyTimes_unfolded (m + 1) n).of_step hredex
      exact step_applyTimes_church (m + 1) n

theorem reaches_product (m n : Nat) :
    Reaches (app (app Combinator.product.term (church m)) (church n)) (church (m * n)) := by
  have hclosed := notMem_freeNames_church
  have hfirst : HeadStep (app Combinator.product.term (church m))
      (lam "n" (lam "f" (app (church m) (app (var "n") (var "f"))))) :=
    .contract (.under (by decide) (hclosed _ m) (.under (by decide) (hclosed _ m)
      (.app .hit (.of_notMem (by decide) _))))
  have hsecond : HeadStep
      (app (lam "n" (lam "f" (app (church m) (app (var "n") (var "f"))))) (church n))
      (lam "f" (app (church m) (app (church n) (var "f")))) :=
    .contract (.under (by decide) (hclosed _ n) (.app (.of_notMem (hclosed _ m) _)
      (.app .hit (.other (by decide)))))
  have hx : "x" ∉ (app (church n) (var "f")).freeNames := by simp [hclosed]
  have hunder : Reaches (app (church m) (app (church n) (var "f")))
      (lam "x" (applications "f" "x" (m * n))) :=
    .of_headStep (headStep_church hx m) ((reaches_applyTimes_church m n).lam "x")
  exact .of_headStep (hfirst.app (hasRedex_church n)) (.of_headStep hsecond (hunder.lam "f"))

/-! ## Test for zero -/

theorem reaches_zeroTest (n : Nat) :
    Reaches (app Combinator.zeroTest.term (church n))
      (if n = 0 then Combinator.truth.term else Combinator.falsity.term) := by
  have hfirst : HeadStep (app Combinator.zeroTest.term (church n))
      (app (app (church n) (lam "x" Combinator.falsityTerm)) Combinator.truthTerm) :=
    .contract (.app (.app .hit (.of_notMem (by decide) _)) (.of_notMem (by decide) _))
  refine .of_headStep hfirst (.of_headSteps (headSteps_church (by decide) rfl n) ?_)
  cases n with
  | zero => exact .refl _
  | succ n => exact .of_headStep (.contract (.of_notMem (by decide) _)) (.refl _)

end BinaryLambda.Term
