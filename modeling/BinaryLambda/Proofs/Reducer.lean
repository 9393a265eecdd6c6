import BinaryLambda.Proofs.Outcome
import BinaryLambda.Reducer

set_option autoImplicit false

/-!
# Reducers: what a run does

A run of a reducer of terms takes steps, each from a term that has a redex, and it
ends for one of three reasons: it may take no more of them, there is no redex, or
the next step fails (`advance_spec`).  Watching makes no difference, and what a run
leaves depends only on its tree and on how many steps it may take
(`advance_result_eq`), so a run may be cut in two anywhere (`interpret_add`).
-/

namespace BinaryLambda

/-- A number of steps, each from a term that has a redex. -/
inductive Term.Steps : Nat → Term → Term → Prop where
  | zero (t : Term) : Steps 0 t t
  | succ {n : Nat} {t u v : Term} : t.hasRedex = true → t.step = .ok u → Steps n u v →
      Steps (n + 1) t v

namespace Reducer

/-! ## One turn of a run -/

theorem advance_of_normal (watched : Bool) (remaining : Nat) {r : Reducer Term}
    (h : r.tree.hasRedex = false) :
    advance Term.calculus watched (remaining + 1) r = ⟨r, [], none⟩ := by
  simp only [advance, Term.calculus, h]

theorem advance_of_error (watched : Bool) (remaining : Nat) {r : Reducer Term}
    {e : Term.NoFreshName} (h : r.tree.hasRedex = true) (hstep : r.tree.step = .error e) :
    advance Term.calculus watched (remaining + 1) r = ⟨r, [], some e⟩ := by
  simp only [advance, Term.calculus, h, hstep]

/-- After a step, and the event that a watcher sees of it, the run goes on from the
next tree. -/
theorem advance_of_step (watched : Bool) (remaining : Nat) {r : Reducer Term} {t : Term}
    (h : r.tree.hasRedex = true) (hstep : r.tree.step = .ok t) :
    advance Term.calculus watched (remaining + 1) r =
      { advance Term.calculus watched remaining { r with tree := t, steps := r.steps + 1 } with
        events := (if watched then [.step t.text] else []) ++
          (advance Term.calculus watched remaining
            { r with tree := t, steps := r.steps + 1 }).events } := by
  cases watched <;> (simp only [advance, Term.calculus, h, hstep]; rfl)

/-! ## Whole runs -/

/-- Why a run of at most `remaining` steps ended at the tree `u` after `taken` of
them, by what stopped it. -/
def EndsWith (remaining taken : Nat) (u : Term) : Option Term.NoFreshName → Prop
  | none => taken = remaining ∨ u.hasRedex = false
  | some e => taken < remaining ∧ u.hasRedex = true ∧ u.step = .error e

theorem EndsWith.succ {remaining taken : Nat} {u : Term} {fault : Option Term.NoFreshName}
    (h : EndsWith remaining taken u fault) : EndsWith (remaining + 1) (taken + 1) u fault := by
  cases fault with
  | none => exact h.imp_left (congrArg (· + 1))
  | some e => exact ⟨Nat.succ_lt_succ h.1, h.2⟩

/-- The account of a run: the tree and the count of steps move together, and nothing
else in the reducer changes. -/
theorem advance_spec (watched : Bool) (remaining : Nat) (r : Reducer Term) :
    ∃ j u, Term.Steps j r.tree u ∧ j ≤ remaining ∧
      (advance Term.calculus watched remaining r).reducer =
        { r with tree := u, steps := r.steps + j } ∧
      EndsWith remaining j u (advance Term.calculus watched remaining r).fault := by
  induction remaining generalizing r with
  | zero => exact ⟨0, r.tree, .zero _, Nat.le_refl 0, rfl, .inl rfl⟩
  | succ remaining ih =>
      cases hredex : r.tree.hasRedex with
      | false =>
          rw [advance_of_normal watched remaining hredex]
          exact ⟨0, r.tree, .zero _, Nat.zero_le _, rfl, .inr hredex⟩
      | true =>
          cases hstep : r.tree.step with
          | error e =>
              rw [advance_of_error watched remaining hredex hstep]
              exact ⟨0, r.tree, .zero _, Nat.zero_le _, rfl, Nat.succ_pos _, hredex, hstep⟩
          | ok t =>
              obtain ⟨j, u, hsteps, hle, hreducer, hend⟩ :=
                ih { r with tree := t, steps := r.steps + 1 }
              rw [advance_of_step watched remaining hredex hstep]
              refine ⟨j + 1, u, .succ hredex hstep hsteps, Nat.succ_le_succ hle, ?_, hend.succ⟩
              rw [hreducer, Nat.add_assoc, Nat.add_comm 1 j]

/-- What a run leaves, or what stops it, depends only on its tree and on the number of
steps that it may take, watched or not. -/
theorem advance_result_eq (watched watched' : Bool) (remaining : Nat) {r r' : Reducer Term}
    (h : r.tree = r'.tree) :
    (advance Term.calculus watched remaining r).result =
      (advance Term.calculus watched' remaining r').result := by
  induction remaining generalizing r r' with
  | zero => exact congrArg Except.ok h
  | succ remaining ih =>
      cases hredex : r.tree.hasRedex with
      | false =>
          have hredex' : r'.tree.hasRedex = false := h ▸ hredex
          rw [advance_of_normal watched remaining hredex,
            advance_of_normal watched' remaining hredex']
          exact congrArg Except.ok h
      | true =>
          have hredex' : r'.tree.hasRedex = true := h ▸ hredex
          cases hstep : r.tree.step with
          | error e =>
              have hstep' : r'.tree.step = .error e := h ▸ hstep
              rw [advance_of_error watched remaining hredex hstep,
                advance_of_error watched' remaining hredex' hstep']
              rfl
          | ok t =>
              have hstep' : r'.tree.step = .ok t := h ▸ hstep
              rw [advance_of_step watched remaining hredex hstep,
                advance_of_step watched' remaining hredex' hstep']
              exact ih rfl

/-- At its end, a run tells a watcher of a redex that is left, unless a step failed. -/
theorem run_eq (r : Reducer Term) (watched : Bool) :
    r.run Term.calculus watched =
      let ended := advance Term.calculus watched (r.cap - r.steps).toNat r
      { ended with
        events := ended.events ++
          if watched && ended.fault.isNone && ended.reducer.tree.hasRedex then
            [.unfinished r.initial.text r.cap]
          else [] } := by
  rw [run]
  generalize advance Term.calculus watched (r.cap - r.steps).toNat r = ended
  obtain ⟨reducer, events, fault⟩ := ended
  dsimp only [Term.calculus]
  cases watched <;> cases fault <;> cases reducer.tree.hasRedex <;> simp

/-- What a watcher is told after a run does not change what the run leaves. -/
theorem run_result_eq (r : Reducer Term) (watched : Bool) :
    (r.run Term.calculus watched).result =
      (advance Term.calculus watched (r.cap - r.steps).toNat r).result := by
  rw [run_eq]
  rfl

end Reducer

namespace Term

/-- The run from a term of at most `cap` steps. -/
def reduction (t : Term) (cap : Nat) : Run Term NoFreshName :=
  Reducer.run ⟨t, t, 0, cap⟩ calculus false

theorem reduction_eq_advance (t : Term) (cap : Nat) :
    t.reduction cap = Reducer.advance calculus false cap ⟨t, t, 0, cap⟩ := by
  simp [reduction, Reducer.run]

theorem interpret_eq_result (t : Term) (cap : Nat) :
    t.interpret cap = (t.reduction cap).result := rfl

/-! ## Cutting a run in two -/

theorem interpret_eq_advance (t : Term) (cap : Nat) :
    t.interpret cap = (Reducer.advance calculus false cap ⟨t, t, 0, cap⟩).result := by
  rw [interpret_eq_result, reduction_eq_advance]

theorem interpret_zero (t : Term) : t.interpret 0 = .ok t := by
  rw [interpret_eq_advance]
  rfl

theorem interpret_of_normal {t : Term} (h : t.hasRedex = false) (cap : Nat) :
    t.interpret cap = .ok t := by
  cases cap with
  | zero => exact interpret_zero t
  | succ cap =>
      rw [interpret_eq_advance, Reducer.advance_of_normal false cap h]
      rfl

theorem interpret_of_error {t : Term} {e : NoFreshName} (h : t.hasRedex = true)
    (hstep : t.step = .error e) (cap : Nat) : t.interpret (cap + 1) = .error e := by
  rw [interpret_eq_advance, Reducer.advance_of_error false cap h hstep]
  rfl

theorem interpret_of_step {t u : Term} (h : t.hasRedex = true) (hstep : t.step = .ok u)
    (cap : Nat) : t.interpret (cap + 1) = u.interpret cap := by
  rw [interpret_eq_advance, Reducer.advance_of_step false cap h hstep, interpret_eq_advance]
  exact Reducer.advance_result_eq false false cap rfl

/-- A watched run gives what the run gives that nobody watches. -/
theorem run_watched_result (t : Term) (cap : Nat) :
    (Reducer.run ⟨t, t, 0, cap⟩ calculus true).result = t.interpret cap := by
  rw [interpret, Reducer.run_result_eq, Reducer.run_result_eq]
  exact Reducer.advance_result_eq true false _ rfl

/-- A run of `m + n` steps is one of `m` steps and, from what it leaves, one of `n`
steps; it fails where the two fail. -/
theorem interpret_add (t : Term) (m n : Nat) :
    t.interpret (m + n) = (t.interpret m).bind fun u => u.interpret n := by
  induction m generalizing t with
  | zero =>
      rw [Nat.zero_add, interpret_zero]
      rfl
  | succ m ih =>
      rw [Nat.succ_add]
      cases hredex : t.hasRedex with
      | false =>
          rw [interpret_of_normal hredex, interpret_of_normal hredex]
          exact (interpret_of_normal hredex n).symm
      | true =>
          cases hstep : t.step with
          | error e =>
              rw [interpret_of_error hredex hstep, interpret_of_error hredex hstep]
              rfl
          | ok u => rw [interpret_of_step hredex hstep, interpret_of_step hredex hstep, ih]

/-! ## Steps of a run that returns -/

/-- A run that returns took some steps, at most `cap`, and it took `cap` of them or
left no redex. -/
theorem steps_of_interpret {t r : Term} {cap : Nat} (h : t.interpret cap = .ok r) :
    ∃ j, Steps j t r ∧ j ≤ cap ∧ (t.reduction cap).reducer = ⟨t, r, j, cap⟩ ∧
      (j = cap ∨ r.hasRedex = false) := by
  obtain ⟨j, u, hsteps, hle, hreducer, hend⟩ := Reducer.advance_spec false cap ⟨t, t, 0, cap⟩
  rw [← reduction_eq_advance] at hreducer hend
  rw [interpret_eq_result] at h
  rw [Run.result, hreducer] at h
  generalize (t.reduction cap).fault = fault at h hend
  cases fault with
  | some e => cases h
  | none =>
      cases h
      exact ⟨j, hsteps, hle, by rw [hreducer, Nat.zero_add], hend⟩

/-- On the way to a term without redex, no step fails. -/
theorem Steps.exists_step {n j : Nat} {t u v : Term} (h : Steps n t u) (hu : u.hasRedex = false)
    (hv : Steps j t v) (hredex : v.hasRedex = true) : ∃ w, v.step = .ok w := by
  induction h generalizing j with
  | zero t =>
      cases hv with
      | zero => exact absurd hredex (by simp [hu])
      | succ ht _ _ => exact absurd ht (by simp [hu])
  | succ _ hstep _ ih =>
      cases hv with
      | zero => exact ⟨_, hstep⟩
      | succ _ hstep' hrest =>
          rw [hstep] at hstep'
          cases hstep'
          exact ih hu hrest

/-- A term from which steps lead to a term without redex can be run within any cap. -/
theorem Steps.exists_interpret {n : Nat} {t u : Term} (h : Steps n t u) (hu : u.hasRedex = false)
    (cap : Nat) : ∃ r, t.interpret cap = .ok r := by
  obtain ⟨j, v, hsteps, _, _, hend⟩ := Reducer.advance_spec false cap ⟨t, t, 0, cap⟩
  rw [interpret_eq_result, reduction_eq_advance, Run.result]
  generalize (Reducer.advance calculus false cap ⟨t, t, 0, cap⟩).fault = fault at hend
  cases fault with
  | none => exact ⟨_, rfl⟩
  | some e =>
      obtain ⟨_, hredex, herror⟩ := hend
      obtain ⟨w, hw⟩ := h.exists_step hu hsteps hredex
      rw [hw] at herror
      cases herror

end Term

end BinaryLambda
