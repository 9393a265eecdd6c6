import BinaryLambda.Proofs.Term.Arithmetic
import Mathlib.Algebra.Group.Nat.Defs

set_option autoImplicit false

/-!
# Terms: powers of Church numerals

The power of two numerals applies the exponent to the base, so the base is applied as often
as the exponent says: the numerals make a tower over one variable (`tower`).  A numeral that
takes a tower holds it in its body, and there the binder of the numeral is renamed, as the
variable beneath the tower has its name (`headStep_tower`).

From then on all towers of a term open at once and opened ones contract, so heads and
arguments change in the same step.  `Chain` describes every term on the way: what it is worth
stays the same, and each step makes it cheaper (`Chain.step`), so it ends in as many
applications as it is worth (`Chain.reaches`).

No numeral is left where a binder is missing or hides another: without an exponent the term
is the identity, and the numeral of zero keeps a binder of the name of the outer one
(`reaches_power`).
-/

namespace BinaryLambda.Term

open Relation

/-! ## Towers -/

/-- The numeral of `m`, applied `height` times to the variable `x`. -/
def tower (m height : Nat) : Term := (church m).applyTimes height (var "x")

/-- A numeral that has taken a tower of this height. -/
def openedTower (m height : Nat) : Term := lam "y" ((tower m height).applyTimes m (var "y"))

theorem tower_succ (m height : Nat) : tower m (height + 1) = app (church m) (tower m height) := rfl

theorem mem_freeNames_tower {m height : Nat} {y : String} :
    y ∈ (tower m height).freeNames ↔ y = "x" := by
  induction height with
  | zero => exact mem_freeNames_var
  | succ height ih =>
      rw [tower_succ, mem_freeNames_app, ih, or_iff_right (notMem_freeNames_church y m)]

theorem rename_applications {f x : String} (h : f ≠ x) (y : String) (m : Nat) :
    (applications f x m).rename x y = applications f y m := by
  induction m with
  | zero => exact congrArg var (if_pos rfl)
  | succ m ih =>
      rw [applications_eq, applyTimes_succ, rename, ← applications_eq, ih, rename, if_neg h]
      rfl

theorem bindsFree_applications (f x c z : String) (m : Nat) :
    (applications f x m).bindsFree c z = false := by
  induction m with
  | zero => rfl
  | succ m ih => exact bindsFree_app_eq_false.mpr ⟨rfl, ih⟩

/-- Beneath a tower there is no `y`, so `y` takes the place of the binder `x`. -/
theorem freshName_tower (m height : Nat) :
    freshName "x" (applications "f" "x" m) ("f" :: (tower m height).freeNames) = .ok "y" := by
  have hfirst : candidates "x" = "y" :: (candidates "x").tail := by decide
  have havoid : "y" ∉ "f" :: (tower m height).freeNames := by
    rw [List.mem_cons, mem_freeNames_tower]
    decide
  have hfree : "y" ∉ (applications "f" "x" m).freeNames := by
    intro h
    exact absurd (freeNames_applications_subset "f" "x" m h) (by decide)
  have hrename :
      canRename "x" (applications "f" "x" m) ("f" :: (tower m height).freeNames) "y" = true :=
    canRename_iff.mpr ⟨by decide, havoid, hfree, bindsFree_applications ..⟩
  rw [freshName, hfirst, List.find?_cons_of_pos hrename]

/-- A numeral that is not zero takes a tower into its body. -/
theorem headStep_tower {m : Nat} (hm : 0 < m) (height : Nat) :
    HeadStep (tower m (height + 1)) (openedTower m height) := by
  have hx : "x" ∈ (tower m height).freeNames := mem_freeNames_tower.mpr rfl
  have hf : "f" ∈ (applications "f" "x" m).freeNames := by
    obtain ⟨m, rfl⟩ := Nat.exists_eq_add_one_of_ne_zero (Nat.ne_of_gt hm)
    exact mem_freeNames_app.mpr (.inl (mem_freeNames_var.mpr rfl))
  refine .contract (.renamed (by decide) hx hf (freshName_tower m height) ?_)
  rw [rename_applications (by decide), applications_eq]
  exact SubstitutesTo.applyTimes .hit (.other (by decide)) m

/-- An opened tower is applied to an argument as often as its numeral says. -/
theorem headStep_openedTower (m height : Nat) (a : Term) :
    HeadStep (app (openedTower m height) a) ((tower m height).applyTimes m a) := by
  have hy : "y" ∉ (tower m height).freeNames := by
    rw [mem_freeNames_tower]
    decide
  exact .contract ((SubstitutesTo.of_notMem hy a).applyTimes .hit m)

/-! ## Chains -/

/-- What a tower of this height costs until nothing but its variable is left. -/
def towerCost (m : Nat) : Nat → Nat
  | 0 => 0
  | height + 1 => m * towerCost m height + 2

/-- The term applies towers, opened or not, one after the other to the variable `y`.  It costs
`cost` and is worth `k` applications of the variable beneath the towers. -/
inductive Chain (m : Nat) : Nat → Nat → Term → Prop where
  | last : Chain m 0 0 (var "y")
  | tower (height : Nat) {cost k : Nat} {a : Term} : Chain m cost k a →
      Chain m (cost + towerCost m height) (k + m ^ height) (app (tower m height) a)
  | opened (height : Nat) {cost k : Nat} {a : Term} : Chain m cost k a →
      Chain m (cost + (m * towerCost m height + 1)) (k + m ^ (height + 1))
        (app (openedTower m height) a)

/-- Towers in front of a chain. -/
theorem Chain.applyTimes {m cost k : Nat} {a : Term} (h : Chain m cost k a) (height n : Nat) :
    Chain m (cost + n * towerCost m height) (k + n * m ^ height)
      ((Term.tower m height).applyTimes n a) := by
  induction n with
  | zero =>
      rw [Nat.zero_mul, Nat.zero_mul]
      exact h
  | succ n ih =>
      rw [Nat.succ_mul, Nat.succ_mul, ← Nat.add_assoc, ← Nat.add_assoc]
      exact .tower height ih

/-- A step keeps what a chain is worth, and it makes a chain cheaper that has a redex. -/
theorem Chain.exists_step {m cost k : Nat} {t : Term} (hm : 0 < m) (h : Chain m cost k t) :
    ∃ cost' t', t.step = .ok t' ∧ Chain m cost' k t' ∧ cost' ≤ cost ∧
      (t.hasRedex = true → cost' < cost) := by
  induction h with
  | last => exact ⟨0, _, rfl, .last, Nat.le_refl 0, nofun⟩
  | @tower height cost k a _ ih =>
      obtain ⟨cost', a', hstep, hchain, hle, hlt⟩ := ih
      cases height with
      | zero =>
          have hvar : ∀ p b, Term.tower m 0 ≠ lam p b := by
            intro p b h
            cases h
          refine ⟨_, _, ?_, hchain.tower 0, Nat.add_le_add_right hle _, ?_⟩
          · rw [step_app hvar, hstep]
            rfl
          · intro hredex
            rw [hasRedex_app hvar] at hredex
            exact Nat.add_lt_add_right (hlt hredex) _
      | succ height =>
          -- The tower opens, and the argument takes its step at the same time.
          have hhead := headStep_tower hm height
          have hcost : cost' + (m * towerCost m height + 1) < cost + towerCost m (height + 1) := by
            rw [towerCost]
            omega
          refine ⟨_, _, ?_, hchain.opened height, Nat.le_of_lt hcost, fun _ => hcost⟩
          rw [step_app hhead.ne_lam, hhead.step_eq, hstep]
          rfl
  | @opened height cost k a ha _ =>
      have hhead := headStep_openedTower m height a
      have hcost : cost + m * towerCost m height < cost + (m * towerCost m height + 1) := by
        omega
      refine ⟨_, _, hhead.step_eq, ?_, Nat.le_of_lt hcost, fun _ => hcost⟩
      rw [Nat.pow_succ']
      exact ha.applyTimes height m

/-- A chain without redex has nothing but variables in it. -/
theorem Chain.eq_applications {m cost k : Nat} {t : Term} (hm : 0 < m) (h : Chain m cost k t)
    (hnormal : t.hasRedex = false) : t = applications "x" "y" k := by
  induction h with
  | last => rfl
  | @tower height cost k a _ ih =>
      cases height with
      | zero => exact congrArg (app (var "x")) (ih hnormal)
      | succ height =>
          have hhead := headStep_tower hm height
          rw [hasRedex_app hhead.ne_lam, hhead.hasRedex] at hnormal
          cases hnormal
  | opened => cases hnormal

/-- A chain is reduced to as many applications as it is worth. -/
theorem Chain.reaches {m cost k : Nat} {t : Term} (hm : 0 < m) (h : Chain m cost k t) :
    Reaches t (applications "x" "y" k) := by
  induction cost using Nat.strongRecOn generalizing t with
  | ind cost ih =>
      cases hredex : t.hasRedex with
      | false =>
          rw [h.eq_applications hm hredex]
          exact .refl _
      | true =>
          obtain ⟨cost', t', hstep, hchain, -, hlt⟩ := h.exists_step hm
          exact .of_step hredex hstep (ih cost' (hlt hredex) hchain)

/-! ## Powers -/

/-- What a power leaves.  Without an exponent the identity is left, which has one binder.  The
numeral of zero has nothing to put in the place of its variable, so its binder is not renamed
and hides the outer one. -/
def powerNormal : Nat → Nat → Term
  | _, 0 => lam "x" (var "x")
  | 0, _ + 1 => lam "x" (lam "x" (var "x"))
  | m + 1, n + 1 => lam "x" (lam "y" (applications "x" "y" ((m + 1) ^ (n + 1))))

theorem hasRedex_powerNormal (m n : Nat) : (powerNormal m n).hasRedex = false := by
  match m, n with
  | _, 0 => rfl
  | 0, _ + 1 => rfl
  | m + 1, n + 1 => exact hasRedex_applyTimes_var "x" _ (var "y")

/-- What a power leaves is a numeral if there is a base and an exponent. -/
theorem churchValue?_powerNormal (m n : Nat) :
    (powerNormal m n).churchValue? = if m = 0 ∨ n = 0 then none else some (m ^ n) := by
  match m, n with
  | m, 0 => rw [if_pos (.inr rfl)]; rfl
  | 0, _ + 1 => rfl
  | m + 1, n + 1 =>
      rw [if_neg (by simp)]
      exact countApplications_applications "x" "y" _

theorem reaches_tower (m n : Nat) : Reaches (lam "x" (tower m n)) (powerNormal m n) := by
  match m, n with
  | _, 0 => exact .refl _
  | 0, height + 1 =>
      have hx : "x" ∈ (tower 0 height).freeNames := mem_freeNames_tower.mpr rfl
      have hhead : HeadStep (tower 0 (height + 1)) (lam "x" (var "x")) :=
        .contract (.absent (by decide) hx (by decide))
      exact (Reaches.of_headStep hhead (.refl _)).lam "x"
  | m + 1, height + 1 =>
      have hchain : Chain (m + 1) (0 + (m + 1) * towerCost (m + 1) height)
          (0 + (m + 1) * (m + 1) ^ height) ((tower (m + 1) height).applyTimes (m + 1) (var "y")) :=
        Chain.last.applyTimes height (m + 1)
      rw [Nat.zero_add, Nat.zero_add, ← Nat.pow_succ'] at hchain
      have hbody := (hchain.reaches (Nat.succ_pos m)).lam "y"
      exact (Reaches.of_headStep (headStep_tower (Nat.succ_pos m) height) hbody).lam "x"

theorem reaches_power (m n : Nat) :
    Reaches (app (app Combinator.power.term (church m)) (church n)) (powerNormal m n) := by
  have hclosed := notMem_freeNames_church
  have hfirst : HeadStep (app Combinator.power.term (church m))
      (lam "n" (app (var "n") (church m))) :=
    .contract (.under (by decide) (hclosed _ m) (.app (.other (by decide)) .hit))
  have hsecond : HeadStep (app (lam "n" (app (var "n") (church m))) (church n))
      (app (church n) (church m)) := .contract (.app .hit (.of_notMem (hclosed _ m) _))
  exact .of_headStep (hfirst.app (hasRedex_church n)) (.of_headStep hsecond
    (.of_headStep (headStep_church (hclosed _ m) n) (reaches_tower m n)))

end BinaryLambda.Term
