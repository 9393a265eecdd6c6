import BinaryLambda.Proofs.Reducer
import BinaryLambda.Proofs.Reporter
import Mathlib.Data.List.Basic

set_option autoImplicit false

/-!
# Reducers: accounts of a history

A reducer lives through a history of runs, between which its cap and its tree may be set.
`StopsAt` says where a run has to stop: at the least number of steps at which the cap is
reached or no redex is left, or before that where a step fails.  A run stops there
(`exists_account`) and there is one such place (`StopsAt.unique`), so whatever is run twice,
watched or not, in one go or in two, leaves the same tree and the same count
(`after_runs`).
-/

namespace BinaryLambda

/-! ## Steps one after the other -/

/-- The term after `n` steps, if none of them fails. -/
def Term.stepTimes : Nat → Term → Except Term.NoFreshName Term
  | 0, t => .ok t
  | n + 1, t => t.step.bind (stepTimes n)

namespace Term

theorem stepTimes_succ {t u : Term} (h : t.step = .ok u) (n : Nat) :
    stepTimes (n + 1) t = stepTimes n u := by
  rw [stepTimes, h]
  rfl

theorem stepTimes_add (m n : Nat) (t : Term) :
    stepTimes (m + n) t = (stepTimes m t).bind (stepTimes n) := by
  induction m generalizing t with
  | zero => rw [Nat.zero_add, stepTimes, Except.bind]
  | succ m ih =>
      rw [Nat.succ_add, stepTimes, stepTimes]
      cases t.step with
      | error e => rfl
      | ok u => exact ih u

/-- The step after `n` others. -/
theorem stepTimes_one_of {n : Nat} {t u : Term} (h : stepTimes n t = .ok u) :
    stepTimes (n + 1) t = u.step := by
  rw [stepTimes_add, h]
  change u.step.bind Except.ok = u.step
  cases u.step <;> rfl

/-- Steps that do not fail have not failed before. -/
theorem exists_stepTimes_of_le {m n : Nat} {t u : Term} (h : stepTimes n t = .ok u)
    (hle : m ≤ n) : ∃ v, stepTimes m t = .ok v := by
  obtain ⟨k, rfl⟩ := Nat.exists_eq_add_of_le hle
  rw [stepTimes_add] at h
  cases hm : stepTimes m t with
  | ok v => exact ⟨v, rfl⟩
  | error e =>
      rw [hm] at h
      cases h

/-- Steps from terms that have redexes, in terms of the number of steps. -/
theorem Steps.stepTimes {n : Nat} {t u : Term} (h : Steps n t u) :
    stepTimes n t = .ok u ∧ ∀ i < n, ∃ v, Term.stepTimes i t = .ok v ∧ v.hasRedex = true := by
  induction h with
  | zero t => exact ⟨rfl, fun i hi => absurd hi (Nat.not_lt_zero i)⟩
  | succ hredex hstep _ ih =>
      refine ⟨(stepTimes_succ hstep _).trans ih.1, fun i hi => ?_⟩
      cases i with
      | zero => exact ⟨_, rfl, hredex⟩
      | succ i =>
          rw [stepTimes_succ hstep]
          exact ih.2 i (Nat.lt_of_succ_lt_succ hi)

end Term

namespace Reducer

open Term (calculus stepTimes)

/-! ## Where a run stops -/

/-- After `i` steps the cap is not reached and there is a redex. -/
def GoesOn (r : Reducer Term) (i : Nat) : Prop :=
  (r.steps + i : Int) < r.cap ∧ ∃ v, stepTimes i r.tree = .ok v ∧ v.hasRedex = true

theorem GoesOn.mono {r : Reducer Term} {i : Nat} {a b : Int}
    (h : GoesOn { r with cap := a } i) (hle : a ≤ b) : GoesOn { r with cap := b } i :=
  ⟨Int.lt_of_lt_of_le h.1 hle, h.2⟩

/-- What goes on after the tree was reached goes on after the steps to it. -/
theorem GoesOn.resumed {r : Reducer Term} {i j : Nat} {u : Term} {cap : Int}
    (h : GoesOn ⟨r.initial, u, r.steps + j, cap⟩ i) (hreached : stepTimes j r.tree = .ok u) :
    GoesOn { r with cap := cap } (j + i) := by
  obtain ⟨hcap, v, hv, hredex⟩ := h
  dsimp only at hcap hv
  refine ⟨?_, v, ?_, hredex⟩
  · dsimp only
    omega
  · rw [Term.stepTimes_add, hreached]
    exact hv

/-- A run of `r` has to stop after `j` steps, at the tree `u`, with this fault: it goes on
until then, and now the cap is reached or no redex is left, or else the next step fails. -/
structure StopsAt (r : Reducer Term) (j : Nat) (u : Term) (fault : Option Term.NoFreshName) :
    Prop where
  reached : stepTimes j r.tree = .ok u
  before : ∀ i < j, r.GoesOn i
  ending : match fault with
    | none => r.cap ≤ r.steps + j ∨ u.hasRedex = false
    | some e => r.GoesOn j ∧ u.step = .error e

namespace StopsAt

variable {r : Reducer Term} {j j' : Nat} {u u' : Term} {fault fault' : Option Term.NoFreshName}
  {e : Term.NoFreshName}

theorem not_goesOn (h : StopsAt r j u none) : ¬ r.GoesOn j := by
  rintro ⟨hcap, v, hv, hredex⟩
  rw [h.reached, Except.ok.injEq] at hv
  subst hv
  rcases h.ending with hreached | hnormal
  · omega
  · rw [hredex] at hnormal
    cases hnormal

theorem goesOn (h : StopsAt r j u (some e)) : r.GoesOn j := h.ending.1

theorem step_eq (h : StopsAt r j u (some e)) : u.step = .error e := h.ending.2

/-- No run goes on past the place where one has to stop. -/
theorem le (h : StopsAt r j u fault) (h' : StopsAt r j' u' fault') : j' ≤ j := by
  by_contra hlt
  rw [Nat.not_le] at hlt
  cases fault with
  | none => exact h.not_goesOn (h'.before j hlt)
  | some e =>
      obtain ⟨w, hw⟩ := Term.exists_stepTimes_of_le h'.reached (Nat.succ_le_of_lt hlt)
      rw [Term.stepTimes_one_of h.reached, h.step_eq] at hw
      cases hw

/-- There is one place where a run has to stop. -/
theorem unique (h : StopsAt r j u fault) (h' : StopsAt r j' u' fault') :
    j = j' ∧ u = u' ∧ fault = fault' := by
  obtain rfl : j = j' := Nat.le_antisymm (h'.le h) (h.le h')
  obtain rfl : u = u' := Except.ok.inj (h.reached.symm.trans h'.reached)
  refine ⟨rfl, rfl, ?_⟩
  cases fault with
  | none =>
      cases fault' with
      | none => rfl
      | some e' => exact absurd h'.goesOn h.not_goesOn
  | some e =>
      cases fault' with
      | none => exact absurd h.goesOn h'.not_goesOn
      | some e' => exact congrArg some (Except.error.inj (h.step_eq.symm.trans h'.step_eq))

/-- At a cap that the count has reached, a run stops at once. -/
theorem of_cap_le (h : r.cap ≤ r.steps) : StopsAt r 0 r.tree none where
  reached := rfl
  before i hi := absurd hi (Nat.not_lt_zero i)
  ending := .inl (by omega)

/-- Where a step has failed it fails again. -/
theorem again (h : StopsAt r j u (some e)) :
    StopsAt { r with tree := u, steps := r.steps + j } 0 u (some e) where
  reached := rfl
  before i hi := absurd hi (Nat.not_lt_zero i)
  ending := by
    obtain ⟨hcap, v, hv, hredex⟩ := h.goesOn
    rw [h.reached] at hv
    cases hv
    refine ⟨⟨?_, u, rfl, hredex⟩, h.step_eq⟩
    dsimp only
    omega

/-- From a tree at which the run before stopped for another reason than its cap, no step is
taken. -/
theorem eq_zero_of_stopped {a b : Int} (h : StopsAt { r with cap := a } j u fault)
    (h' : StopsAt ⟨r.initial, u, r.steps + j, b⟩ j' u' fault')
    (hstopped : fault ≠ none ∨ u.hasRedex = false) : j' = 0 := by
  by_contra hne
  have hpos : 0 < j' := Nat.pos_of_ne_zero hne
  rcases hstopped with hfault | hnormal
  · obtain ⟨e, rfl⟩ := Option.ne_none_iff_exists'.mp hfault
    obtain ⟨w, hw⟩ := Term.exists_stepTimes_of_le h'.reached (Nat.succ_le_of_lt hpos)
    rw [Term.stepTimes, h.step_eq] at hw
    cases hw
  · obtain ⟨_, v, hv, hredex⟩ := h'.before 0 hpos
    cases hv
    rw [hnormal] at hredex
    cases hredex

/-- Two runs one after the other, at the caps `a` and `b`, stop where one run at the larger
cap does. -/
theorem resumed {a b : Int} (h : StopsAt { r with cap := a } j u fault)
    (h' : StopsAt ⟨r.initial, u, r.steps + j, b⟩ j' u' fault') :
    ∃ fault'', StopsAt { r with cap := max a b } (j + j') u' fault'' := by
  have hreached : stepTimes (j + j') r.tree = .ok u' := by
    rw [Term.stepTimes_add, h.reached]
    exact h'.reached
  have hbefore : ∀ i < j + j', GoesOn { r with cap := max a b } i := by
    intro i hi
    rcases Nat.lt_or_ge i j with hlt | hge
    · exact (h.before i hlt).mono (Int.le_max_left a b)
    · obtain ⟨k, rfl⟩ := Nat.exists_eq_add_of_le hge
      exact ((h'.before k (by omega)).resumed h.reached).mono (Int.le_max_right a b)
  cases fault' with
  | some e =>
      exact ⟨some e, hreached, hbefore, (h'.goesOn.resumed h.reached).mono (Int.le_max_right a b),
        h'.step_eq⟩
  | none =>
      by_cases hnormal : u'.hasRedex = false
      · exact ⟨none, hreached, hbefore, .inr hnormal⟩
      have hb : b ≤ r.steps + (j + j' : Nat) := by
        have := h'.ending.resolve_right hnormal
        dsimp only at this
        omega
      cases fault with
      | some e =>
          obtain rfl := h.eq_zero_of_stopped h' (.inl nofun)
          obtain rfl : u = u' := Except.ok.inj h'.reached
          exact ⟨some e, hreached, hbefore, h.goesOn.mono (Int.le_max_left a b), h.step_eq⟩
      | none =>
          rcases h.ending with ha | hu
          · refine ⟨none, hreached, hbefore, .inl ?_⟩
            dsimp only at ha ⊢
            omega
          · obtain rfl := h.eq_zero_of_stopped h' (.inr hu)
            obtain rfl : u = u' := Except.ok.inj h'.reached
            exact absurd hu hnormal

end StopsAt

/-! ## Runs stop there -/

/-- A run stops where it has to, and only its tree and its count of steps have changed. -/
theorem run_stopsAt (r : Reducer Term) (watched : Bool) :
    ∃ j u, StopsAt r j u (r.run calculus watched).fault ∧
      (r.run calculus watched).reducer = { r with tree := u, steps := r.steps + j } := by
  rw [run_eq]
  dsimp only
  obtain ⟨j, u, hsteps, hle, hreducer, hend⟩ :=
    advance_spec watched (r.cap - r.steps).toNat r
  obtain ⟨hreached, hredexes⟩ := hsteps.stepTimes
  refine ⟨j, u, ⟨hreached, fun i hi => ⟨by omega, hredexes i hi⟩, ?_⟩, hreducer⟩
  generalize (advance calculus watched (r.cap - r.steps).toNat r).fault = fault at hend
  cases fault with
  | none => exact hend.imp_left fun h => by omega
  | some e =>
      obtain ⟨hlt, hredex, hstep⟩ := hend
      exact ⟨⟨by omega, u, hreached, hredex⟩, hstep⟩

/-- A watcher sees the text of the tree after each step. -/
theorem events_advance (watched : Bool) (remaining : Nat) (r : Reducer Term) :
    ∃ trees : List Term,
      trees.map .ok = ((List.range trees.length).map fun i => stepTimes (i + 1) r.tree) ∧
        (advance calculus watched remaining r).reducer.steps = r.steps + trees.length ∧
        (advance calculus watched remaining r).events =
          if watched then trees.map fun u => .step u.text else [] := by
  have hnone : ∀ {events : List Event}, events = [] →
      events = if watched then ([] : List Term).map fun u => .step u.text else [] := by
    rintro _ rfl
    exact (ite_self _).symm
  induction remaining generalizing r with
  | zero => exact ⟨[], rfl, rfl, hnone rfl⟩
  | succ remaining ih =>
      cases hredex : r.tree.hasRedex with
      | false =>
          rw [advance_of_normal watched remaining hredex]
          exact ⟨[], rfl, rfl, hnone rfl⟩
      | true =>
          cases hstep : r.tree.step with
          | error e =>
              rw [advance_of_error watched remaining hredex hstep]
              exact ⟨[], rfl, rfl, hnone rfl⟩
          | ok t =>
              obtain ⟨trees, htrees, hsteps, hevents⟩ :=
                ih { r with tree := t, steps := r.steps + 1 }
              rw [advance_of_step watched remaining hredex hstep]
              refine ⟨t :: trees, ?_, ?_, ?_⟩
              · rw [List.map_cons, htrees, List.length_cons, List.range_succ_eq_map,
                  List.map_cons, List.map_map, Term.stepTimes_succ hstep]
                refine congrArg (_ :: ·) (List.map_congr_left fun i _ => ?_)
                exact (Term.stepTimes_succ hstep (i + 1)).symm
              · rw [hsteps, List.length_cons]
                dsimp only
                omega
              · rw [hevents]
                cases watched <;> rfl

/-- The account of a run: where it stopped, what it left, the trees after its steps, and what
a watcher saw of it. -/
structure Account (r : Reducer Term) (watched : Bool) (run : Run Term Term.NoFreshName)
    (j : Nat) (u : Term) (trees : List Term) : Prop where
  stopsAt : StopsAt r j u run.fault
  reducer : run.reducer = { r with tree := u, steps := r.steps + j }
  afterEach : trees.map .ok = (List.range j).map fun i => stepTimes (i + 1) r.tree
  events : run.events =
    if watched then
      trees.map (fun v => .step v.text) ++
        if run.fault.isNone && u.hasRedex then [.unfinished r.initial.text r.cap] else []
    else []

/-- Every run has its account. -/
theorem exists_account (r : Reducer Term) (watched : Bool) :
    ∃ j u trees, Account r watched (r.run calculus watched) j u trees := by
  obtain ⟨j, u, hstops, hreducer⟩ := run_stopsAt r watched
  obtain ⟨trees, htrees, hsteps, hevents⟩ :=
    events_advance watched (r.cap - r.steps).toNat r
  have hlast : (advance calculus watched (r.cap - r.steps).toNat r).reducer =
      { r with tree := u, steps := r.steps + j } := by
    rw [run_eq] at hreducer
    exact hreducer
  have hj : trees.length = j := by
    rw [hlast] at hsteps
    exact (Nat.add_left_cancel hsteps).symm
  rw [hj] at htrees
  refine ⟨j, u, trees, hstops, hreducer, htrees, ?_⟩
  rw [run_eq]
  dsimp only
  rw [hevents, hlast]
  cases watched <;> rfl

/-- What the account says that a reporter has on record of the run. -/
theorem Account.steps_follow {r : Reducer Term} {watched : Bool}
    {run : Run Term Term.NoFreshName} {j : Nat} {u : Term} {trees : List Term}
    (h : Account r watched run j u trees) (reporter : Reporter) :
    (reporter.follow run.events).steps.toList =
      reporter.steps.toList ++ if watched then trees.map fun v => ("β", v.text) else [] := by
  rw [Reporter.steps_follow, h.events]
  cases watched with
  | false => rfl
  | true =>
      have hend : (if run.fault.isNone && u.hasRedex then
          [Event.unfinished r.initial.text r.cap] else []).filterMap Reporter.record? = [] := by
        split_ifs <;> rfl
      rw [if_pos rfl, if_pos rfl, List.filterMap_append, hend, List.append_nil,
        List.filterMap_map]
      exact congrArg _ (congrFun List.filterMap_eq_map trees)

/-! ## One run and another -/

/-- Watching changes neither what a run leaves nor what stops it. -/
theorem run_watched_eq (r : Reducer Term) (watched watched' : Bool) :
    (r.run calculus watched).reducer = (r.run calculus watched').reducer ∧
      (r.run calculus watched).fault = (r.run calculus watched').fault := by
  obtain ⟨j, u, hstops, hreducer⟩ := run_stopsAt r watched
  obtain ⟨j', u', hstops', hreducer'⟩ := run_stopsAt r watched'
  obtain ⟨rfl, rfl, hfault⟩ := hstops.unique hstops'
  exact ⟨hreducer.trans hreducer'.symm, hfault⟩

/-- A run never lets the count go down, nor up beyond the cap. -/
theorem steps_run (r : Reducer Term) (watched : Bool) :
    r.steps ≤ (r.run calculus watched).reducer.steps ∧
      ((r.run calculus watched).reducer.steps : Int) ≤ max (r.steps : Int) r.cap := by
  obtain ⟨j, u, hstops, hreducer⟩ := run_stopsAt r watched
  rw [hreducer]
  refine ⟨Nat.le_add_right _ _, ?_⟩
  cases j with
  | zero => exact Int.le_max_left _ _
  | succ j =>
      have hcap := (hstops.before j (Nat.lt_succ_self j)).1
      refine Int.le_trans ?_ (Int.le_max_right _ _)
      dsimp only
      omega

/-- At a cap that the count has reached, a run does nothing. -/
theorem run_of_cap_le {r : Reducer Term} (h : r.cap ≤ r.steps) (watched : Bool) :
    (r.run calculus watched).reducer = r ∧ (r.run calculus watched).fault = none := by
  obtain ⟨j, u, hstops, hreducer⟩ := run_stopsAt r watched
  obtain ⟨rfl, rfl, hfault⟩ := (StopsAt.of_cap_le h).unique hstops
  exact ⟨hreducer, hfault.symm⟩

/-- After a step has failed, another run fails in the same way and changes nothing. -/
theorem run_again {r : Reducer Term} {watched : Bool} {e : Term.NoFreshName}
    (h : (r.run calculus watched).fault = some e) (watched' : Bool) :
    let again := (r.run calculus watched).reducer.run calculus watched'
    again.reducer = (r.run calculus watched).reducer ∧ again.fault = some e := by
  intro again
  obtain ⟨j, u, hstops, hreducer⟩ := run_stopsAt r watched
  rw [h] at hstops
  obtain ⟨j', u', hstops', hreducer'⟩ :=
    run_stopsAt { r with tree := u, steps := r.steps + j } watched'
  obtain ⟨rfl, rfl, hfault⟩ := hstops.again.unique hstops'
  have hagain : again =
      Reducer.run { r with tree := u, steps := r.steps + j } calculus watched' :=
    congrArg (fun left => left.run calculus watched') hreducer
  rw [hagain, hreducer]
  exact ⟨hreducer', hfault.symm⟩

/-! ## Histories -/

/-- What can be done with a reducer. -/
inductive Operation where
  | setCap (cap : Int)
  | setTree (tree : Term)
  | run (watched : Bool)
  deriving DecidableEq, Repr, Inhabited

/-- The reducer after an operation, which for a run may have been one that failed. -/
def perform (r : Reducer Term) : Operation → Reducer Term
  | .setCap cap => { r with cap := cap }
  | .setTree tree => { r with tree := tree }
  | .run watched => (r.run calculus watched).reducer

/-- The reducer after a sequence of operations. -/
def after (history : List Operation) (r : Reducer Term) : Reducer Term := history.foldl perform r

theorem initial_perform (r : Reducer Term) (op : Operation) :
    (r.perform op).initial = r.initial := by
  cases op with
  | setCap cap => rfl
  | setTree tree => rfl
  | run watched =>
      obtain ⟨j, u, _, hreducer⟩ := run_stopsAt r watched
      rw [perform, hreducer]

theorem steps_le_perform (r : Reducer Term) (op : Operation) : r.steps ≤ (r.perform op).steps := by
  cases op with
  | setCap cap => exact Nat.le_refl _
  | setTree tree => exact Nat.le_refl _
  | run watched => exact (steps_run r watched).1

/-- Nothing that is done with a reducer changes the term it was started with. -/
theorem initial_after (history : List Operation) (r : Reducer Term) :
    (after history r).initial = r.initial := by
  induction history generalizing r with
  | nil => rfl
  | cons op history ih => exact (ih (r.perform op)).trans (initial_perform r op)

/-- Two runs at different caps leave what one run at the larger cap leaves. -/
theorem after_runs (r : Reducer Term) (a b : Int) (w w' w'' : Bool) :
    let twice := after [.setCap a, .run w, .setCap b, .run w'] r
    let once := after [.setCap (max a b), .run w''] r
    twice.tree = once.tree ∧ twice.steps = once.steps := by
  intro twice once
  obtain ⟨j, u, hstops, hreducer⟩ := run_stopsAt { r with cap := a } w
  obtain ⟨j', u', hstops', hreducer'⟩ := run_stopsAt ⟨r.initial, u, r.steps + j, b⟩ w'
  obtain ⟨j'', u'', hstops'', hreducer''⟩ := run_stopsAt { r with cap := max a b } w''
  obtain ⟨fault, hresumed⟩ := hstops.resumed hstops'
  obtain ⟨rfl, rfl, _⟩ := hresumed.unique hstops''
  have htwice : twice = ⟨r.initial, u', r.steps + j + j', b⟩ := by
    have hfirst : after [.setCap a, .run w, .setCap b] r = ⟨r.initial, u, r.steps + j, b⟩ :=
      congrArg (fun left => left.perform (.setCap b)) hreducer
    exact (congrArg (fun left => left.perform (.run w')) hfirst).trans hreducer'
  have honce : once = ⟨r.initial, u', r.steps + (j + j'), max a b⟩ := hreducer''
  rw [htwice, honce]
  exact ⟨rfl, Nat.add_assoc _ _ _⟩

/-- **A reducer keeps exact accounts.**  Whatever has been done with a reducer that was
started on `t`, it still knows `t`, and no operation lowers its count of steps.  A run from
there, watched or not, takes the least number of steps at which the cap is reached or no
redex is left, or stops before a step that fails; the tree and the count move together, and
the count does not pass the cap.  A watcher sees the tree after each step, and at the end of
a run that no fault has stopped whether a redex is left; a reporter has the steps on record.
At a cap that is reached already a run does nothing, and where a step failed it fails again.
Two runs at different caps leave the tree and the count of one run at the larger cap. -/
theorem after_accounts (t : Term) (cap : Nat) :
    ∃ r₀, start t cap = .ok r₀ ∧ r₀ = ⟨t, t, 0, cap⟩ ∧ ∀ history : List Operation,
      let r := after history r₀
      r.initial = t ∧
      (∀ op, r.steps ≤ (r.perform op).steps) ∧
      (∀ watched,
        let run := r.run calculus watched
        (∃ j u trees, Account r watched run j u trees ∧
          ∀ reporter : Reporter, (reporter.follow run.events).steps.toList =
            reporter.steps.toList ++ if watched then trees.map fun v => ("β", v.text) else []) ∧
        (run.reducer.steps : Int) ≤ max (r.steps : Int) r.cap ∧
        (r.cap ≤ r.steps → run.reducer = r ∧ run.fault = none) ∧
        (∀ watched', (r.run calculus watched').reducer = run.reducer ∧
          (r.run calculus watched').fault = run.fault) ∧
        ∀ e, run.fault = some e → ∀ watched',
          let again := run.reducer.run calculus watched'
          again.reducer = run.reducer ∧ again.fault = some e) ∧
      ∀ (a b : Int) (w w' w'' : Bool),
        let twice := after [.setCap a, .run w, .setCap b, .run w'] r
        let once := after [.setCap (max a b), .run w''] r
        twice.tree = once.tree ∧ twice.steps = once.steps := by
  refine ⟨⟨t, t, 0, cap⟩, if_neg (by omega), rfl, fun history => ?_⟩
  intro r
  refine ⟨initial_after history _, steps_le_perform r, fun watched => ?_, after_runs r⟩
  refine ⟨?_, (steps_run r watched).2, fun h => run_of_cap_le h watched,
    fun watched' => run_watched_eq r watched' watched, fun e he => run_again he⟩
  obtain ⟨j, u, trees, haccount⟩ := exists_account r watched
  exact ⟨j, u, trees, haccount, haccount.steps_follow⟩

end Reducer

end BinaryLambda
