import BinaryLambda.Proofs.Term.Arithmetic

set_option autoImplicit false

/-!
# Terms: the predecessor and the difference

The predecessor applies a numeral to a wrapper of the variable that is applied, to a
wrapper of the argument, and to the identity, which opens the outermost wrapper only.
Repeated predecessors are not reduced from the inside: their wrappers pile up, and then
the identities open one level each.  `Counts level k t` says what `t` is worth on the
way: `k` applications beneath `level` wrappers.  An identity takes one of each
(`Counts.app_opener`), so `n` predecessors of the numeral of `m` leave that of `m - n`
(`reaches_predecessors`).
-/

namespace BinaryLambda.Term

open Relation

/-! ## Wrappers -/

/-- What it is applied to is kept, to be applied to `a` before it is passed on. -/
def passing (a : Term) : Term := lam "g" (lam "h" (app (var "h") (app (var "g") a)))

/-- The term `b`, whatever it is applied to. -/
def constantly (b : Term) : Term := lam "u" b

/-- The function that opens a wrapper. -/
def opener : Term := lam "u" (var "u")

/-- The applied variable beneath `level` wrappers. -/
def wrappedFunction (level : Nat) : Term := Nat.repeat passing level (var "f")

/-- The argument beneath `level` wrappers. -/
def wrappedArgument (level : Nat) : Term := Nat.repeat constantly level (var "x")

/-- A term applied to as many openers. -/
def opened (count : Nat) (t : Term) : Term := (fun u => app u opener)^[count] t

theorem wrappedFunction_succ (level : Nat) :
    wrappedFunction (level + 1) = passing (wrappedFunction level) := rfl

theorem wrappedArgument_succ (level : Nat) :
    wrappedArgument (level + 1) = constantly (wrappedArgument level) := rfl

theorem opened_succ (count : Nat) (t : Term) :
    opened (count + 1) t = opened count (app t opener) := rfl

theorem app_opened (count : Nat) (t : Term) :
    app (opened count t) opener = opened (count + 1) t :=
  (Function.iterate_succ_apply' (fun u => app u opener) count t).symm

theorem notMem_freeNames_wrappedFunction {y : String} (hy : y ≠ "f") (level : Nat) :
    y ∉ (wrappedFunction level).freeNames := by
  induction level with
  | zero => simpa [wrappedFunction, Nat.repeat] using hy
  | succ level ih =>
      simp only [wrappedFunction_succ, passing, mem_freeNames_lam, mem_freeNames_app,
        mem_freeNames_var]
      grind

theorem notMem_freeNames_wrappedArgument {y : String} (hy : y ≠ "x") (level : Nat) :
    y ∉ (wrappedArgument level).freeNames := by
  induction level with
  | zero => simpa [wrappedArgument, Nat.repeat] using hy
  | succ level ih =>
      rw [wrappedArgument_succ, constantly, mem_freeNames_lam]
      exact fun h => ih h.2

theorem hasRedex_wrappedFunction (level : Nat) : (wrappedFunction level).hasRedex = false := by
  induction level with
  | zero => rfl
  | succ level ih => simpa [wrappedFunction_succ, passing, hasRedex] using ih

theorem hasRedex_wrappedArgument (level : Nat) : (wrappedArgument level).hasRedex = false := by
  induction level with
  | zero => rfl
  | succ level ih => exact ih

/-- The opener gives what it is applied to. -/
theorem headStep_opener (t : Term) : HeadStep (app opener t) t := .contract .hit

/-! ## Repeated predecessors -/

/-- As many predecessors of the numeral of `m`. -/
def predecessors (count m : Nat) : Term := Combinator.predecessorTerm.applyTimes count (church m)

theorem notMem_freeNames_predecessors (y : String) (count m : Nat) :
    y ∉ (predecessors count m).freeNames := by
  have hclosed : Combinator.predecessorTerm.freeNames = [] := by decide
  intro hy
  rcases mem_freeNames_applyTimes hy with h | h
  · rw [hclosed] at h
    cases h
  · exact notMem_freeNames_church y m h

/-- A predecessor wraps the two variables that it binds. -/
theorem headStep_predecessor {t : Term} (ht : ∀ y, y ∉ t.freeNames) :
    HeadStep (app Combinator.predecessorTerm t)
      (lam "f" (lam "x" (app (app (app t (passing (var "f"))) (constantly (var "x"))) opener))) :=
  .contract (.under (by decide) (ht _) (.under (by decide) (ht _)
    (.app (.app (.app .hit (.of_notMem (by decide) _)) (.of_notMem (by decide) _))
      (.of_notMem (by decide) _))))

/-- A predecessor that is applied to wrapped variables wraps them once more. -/
theorem headSteps_predecessor {t : Term} (ht : ∀ y, y ∉ t.freeNames) (level : Nat) :
    ReflTransGen HeadStep
      (app (app (app Combinator.predecessorTerm t) (wrappedFunction level))
        (wrappedArgument level))
      (app (app (app t (wrappedFunction (level + 1))) (wrappedArgument (level + 1))) opener) := by
  have hf : ∀ y, y ≠ "f" → y ∉ (wrappedFunction level).freeNames :=
    fun y hy => notMem_freeNames_wrappedFunction hy level
  have hfunction : HeadStep
      (app (lam "f" (lam "x" (app (app (app t (passing (var "f"))) (constantly (var "x"))) opener)))
        (wrappedFunction level))
      (lam "x" (app (app (app t (wrappedFunction (level + 1))) (constantly (var "x"))) opener)) :=
    .contract (.under (by decide) (hf _ (by decide)) (.app (.app (.app (.of_notMem (ht _) _)
      (.under (by decide) (hf _ (by decide)) (.under (by decide) (hf _ (by decide))
        (.app (.other (by decide)) (.app (.other (by decide)) .hit)))))
      (.of_notMem (by decide) _)) (.of_notMem (by decide) _)))
  have hargument : HeadStep
      (app (lam "x" (app (app (app t (wrappedFunction (level + 1))) (constantly (var "x"))) opener))
        (wrappedArgument level))
      (app (app (app t (wrappedFunction (level + 1))) (wrappedArgument (level + 1))) opener) :=
    .contract (.app (.app (.app (.of_notMem (ht _) _)
      (.of_notMem (notMem_freeNames_wrappedFunction (by decide) _) _))
      (.under (by decide) (notMem_freeNames_wrappedArgument (by decide) level) .hit))
      (.of_notMem (by decide) _))
  have hhead := ((headStep_predecessor ht).app (hasRedex_wrappedFunction level)).app
    (hasRedex_wrappedArgument level)
  exact .head hhead (.head (hfunction.app (hasRedex_wrappedArgument level)) (.single hargument))

/-- All predecessors are unfolded before the numeral is: the wrappers pile up, and each
predecessor leaves an opener. -/
theorem headSteps_predecessors (count m level : Nat) :
    ReflTransGen HeadStep
      (app (app (predecessors count m) (wrappedFunction level)) (wrappedArgument level))
      (opened count ((wrappedFunction (level + count)).applyTimes m
        (wrappedArgument (level + count)))) := by
  induction count generalizing level with
  | zero =>
      exact headSteps_church (notMem_freeNames_wrappedFunction (by decide) level)
        (hasRedex_wrappedArgument level) m
  | succ count ih =>
      have hrest := headSteps_app (a := opener) (ih (level + 1)) rfl
      rw [app_opened, Nat.add_right_comm] at hrest
      exact (headSteps_predecessor (fun y => notMem_freeNames_predecessors y count m) level).trans
        hrest

/-! ## What a term is worth -/

/-- The term is worth `k` applications beneath `level` wrappers: applied to any argument, it
opens one level, and it passes on to the argument what is left of the applications. -/
inductive Counts : Nat → Nat → Term → Prop where
  | bare {k : Nat} {t : Term} : "h" ∉ t.freeNames → Reaches t (applications "f" "x" k) →
      Counts 0 k t
  | none {level : Nat} {t r : Term} : "h" ∉ t.freeNames →
      (∀ a, a.hasRedex = false → ReflTransGen HeadStep (app t a) r) →
      Counts level 0 r → Counts (level + 1) 0 t
  | more {level k : Nat} {t r : Term} : "h" ∉ t.freeNames →
      (∀ a, a.hasRedex = false →
        ReflTransGen HeadStep (app t a) (app a (app r (wrappedFunction level)))) →
      Counts (level + 1) k r → Counts (level + 1) (k + 1) t

theorem Counts.notMem {level k : Nat} {t : Term} (h : Counts level k t) : "h" ∉ t.freeNames := by
  cases h <;> assumption

/-- What leads to a term at the head is worth as much. -/
theorem Counts.of_headSteps {level k : Nat} {t u : Term} (ht : "h" ∉ t.freeNames)
    (hsteps : ReflTransGen HeadStep t u) (h : Counts level k u) : Counts level k t := by
  cases h with
  | bare _ hreach => exact .bare ht (.of_headSteps hsteps hreach)
  | none _ hr hcounts =>
      exact .none ht (fun a ha => (headSteps_app hsteps ha).trans (hr a ha)) hcounts
  | more _ hr hcounts =>
      exact .more ht (fun a ha => (headSteps_app hsteps ha).trans (hr a ha)) hcounts

/-- The wrapped variable adds an application. -/
theorem Counts.app_function {level k : Nat} {t : Term} (h : Counts level k t) :
    Counts level (k + 1) (app (wrappedFunction level) t) := by
  have hfree : "h" ∉ (app (wrappedFunction level) t).freeNames :=
    notMem_freeNames_app (notMem_freeNames_wrappedFunction (by decide) level) h.notMem
  cases level with
  | zero =>
      cases h with
      | bare _ hreach => exact .bare hfree (hreach.app_var "f")
  | succ level =>
      refine .more hfree ?_ h
      intro a ha
      have hkept : HeadStep (app (wrappedFunction (level + 1)) t)
          (lam "h" (app (var "h") (app t (wrappedFunction level)))) :=
        .contract (.under (by decide) h.notMem (.app (.other (by decide))
          (.app .hit (.of_notMem (notMem_freeNames_wrappedFunction (by decide) level) _))))
      have hpassed : HeadStep (app (lam "h" (app (var "h") (app t (wrappedFunction level)))) a)
          (app a (app t (wrappedFunction level))) := by
        refine .contract (.app .hit (.of_notMem ?_ _))
        exact notMem_freeNames_app h.notMem (notMem_freeNames_wrappedFunction (by decide) level)
      exact .head (hkept.app ha) (.single hpassed)

/-- Applied to the variable that is wrapped one level less, a term loses that level. -/
theorem Counts.app_wrappedFunction {level k : Nat} {t : Term} (h : Counts (level + 1) k t) :
    Counts level k (app t (wrappedFunction level)) := by
  have hfree : "h" ∉ (app t (wrappedFunction level)).freeNames :=
    notMem_freeNames_app h.notMem (notMem_freeNames_wrappedFunction (by decide) level)
  induction k generalizing t with
  | zero =>
      cases h with
      | none _ hr hcounts =>
          exact hcounts.of_headSteps hfree (hr _ (hasRedex_wrappedFunction level))
  | succ k ih =>
      cases h with
      | @more _ _ _ r _ hr hcounts =>
          have hrest : "h" ∉ (app r (wrappedFunction level)).freeNames :=
            notMem_freeNames_app hcounts.notMem
              (notMem_freeNames_wrappedFunction (by decide) level)
          exact (ih hcounts hrest).app_function.of_headSteps hfree
            (hr _ (hasRedex_wrappedFunction level))

/-- An opener takes a level, and an application if there is one. -/
theorem Counts.app_opener {level k : Nat} {t : Term} (h : Counts (level + 1) k t) :
    Counts level (k - 1) (app t opener) := by
  have hfree : "h" ∉ (app t opener).freeNames := notMem_freeNames_app h.notMem (by decide)
  cases h with
  | none _ hr hcounts => exact hcounts.of_headSteps hfree (hr opener rfl)
  | more _ hr hcounts =>
      exact hcounts.app_wrappedFunction.of_headSteps hfree
        ((hr opener rfl).tail (headStep_opener _))

theorem counts_wrappedArgument (level : Nat) : Counts level 0 (wrappedArgument level) := by
  induction level with
  | zero => exact .bare (by decide) (.refl _)
  | succ level ih =>
      refine .none (notMem_freeNames_wrappedArgument (by decide) _) ?_ ih
      intro a _
      exact .single (.contract (.of_notMem (notMem_freeNames_wrappedArgument (by decide) level) a))

theorem counts_applyTimes (level m : Nat) :
    Counts level m ((wrappedFunction level).applyTimes m (wrappedArgument level)) := by
  induction m with
  | zero => exact counts_wrappedArgument level
  | succ m ih => exact ih.app_function

/-- As many openers as levels take as many applications. -/
theorem Counts.reaches_opened {level k : Nat} {t : Term} (h : Counts level k t) :
    Reaches (opened level t) (applications "f" "x" (k - level)) := by
  induction level generalizing k t with
  | zero =>
      cases h with
      | bare _ hreach => exact hreach
  | succ level ih =>
      rw [opened_succ, Nat.sub_add_eq, Nat.sub_right_comm]
      exact ih h.app_opener

/-! ## Runs -/

/-- Predecessors of a numeral reach the numeral of what is left. -/
theorem reaches_predecessors (count m : Nat) :
    Reaches (predecessors count m) (church (m - count)) := by
  cases count with
  | zero => exact .refl _
  | succ count =>
      have hopened : ReflTransGen HeadStep
          (app (app (app (predecessors count m) (passing (var "f"))) (constantly (var "x"))) opener)
          (opened (count + 1) ((wrappedFunction (count + 1)).applyTimes m
            (wrappedArgument (count + 1)))) := by
        have hsteps := headSteps_app (a := opener) (headSteps_predecessors count m 1) rfl
        rw [app_opened, Nat.add_comm 1 count] at hsteps
        exact hsteps
      have hbody := Reaches.of_headSteps hopened (counts_applyTimes (count + 1) m).reaches_opened
      exact .of_headStep (headStep_predecessor fun y => notMem_freeNames_predecessors y count m)
        ((hbody.lam "x").lam "f")

theorem reaches_predecessor (n : Nat) :
    Reaches (app Combinator.predecessor.term (church n)) (church (n - 1)) :=
  reaches_predecessors 1 n

theorem reaches_difference (m n : Nat) :
    Reaches (app (app Combinator.difference.term (church m)) (church n)) (church (m - n)) := by
  have hfirst : HeadStep (app Combinator.difference.term (church m))
      (lam "n" (app (app (var "n") Combinator.predecessorTerm) (church m))) :=
    .contract (.under (by decide) (notMem_freeNames_church _ m)
      (.app (.of_notMem (by decide) _) .hit))
  have hsecond : HeadStep
      (app (lam "n" (app (app (var "n") Combinator.predecessorTerm) (church m))) (church n))
      (app (app (church n) Combinator.predecessorTerm) (church m)) :=
    .contract (.app (.app .hit (.of_notMem (by decide) _))
      (.of_notMem (notMem_freeNames_church _ m) _))
  have hpredecessors : ReflTransGen HeadStep
      (app (app (church n) Combinator.predecessorTerm) (church m)) (predecessors n m) :=
    headSteps_church (by decide) (hasRedex_church m) n
  exact .of_headStep (hfirst.app (hasRedex_church n))
    (.of_headStep hsecond (.of_headSteps hpredecessors (reaches_predecessors n m)))

end BinaryLambda.Term
