import BinaryLambda.Proofs.Reporter.Deeds

set_option autoImplicit false

/-!
# Reporters: programs in nested blocks

A program is performed up to its first failure, and each block ends a failure or hands it on.
`deeds` says what is done on the way, so the reporter afterwards is known (`performAll_fst`).
A place in a program is given by what stands before and after it, in the program and in each of
the blocks around it (`around`); it is reached if what stands before it does not fail (`way`).
What a failure at a place leads to is said by `Unwinds`.
-/

namespace BinaryLambda.Action

variable {α β : Type}

open Reporter (Deed)

/-! ## How a run ends -/

/-- How a run ends: the reporter, and the failure if it ends with one. -/
def ending (run : Reporter × Except Failure β) : Reporter × Option Failure :=
  (run.1, match run.2 with
    | .ok _ => none
    | .error f => some f)

/-- The end of a block whose body ends so. -/
def close : Reporter × Option Failure → Reporter × Option Failure
  | (r, none) => (r, none)
  | (r, some f) => r.settle f

theorem ending_block (r : Reporter) (body : List (Action α)) :
    ending (perform r (.block body)) = close (ending (performAll r body)) := by
  rw [perform]
  rcases performAll r body with ⟨r', f | replies⟩
  · dsimp only [ending, close]
    rcases r'.settle f with ⟨r'', _ | f'⟩ <;> rfl
  · rfl

section

variable {r r₁ : Reporter} {a : Action α} {as : List (Action α)} {f : Failure}

theorem ending_cons_of_failed (h : ending (perform r a) = (r₁, some f)) (as : List (Action α)) :
    ending (performAll r (a :: as)) = (r₁, some f) := by
  rw [performAll]
  rcases hrun : perform r a with ⟨r', g | reply⟩
  · rw [hrun] at h
    exact h
  · rw [hrun] at h
    cases h

theorem ending_cons (h : ending (perform r a) = (r₁, none)) (as : List (Action α)) :
    ending (performAll r (a :: as)) = ending (performAll r₁ as) := by
  rw [performAll]
  rcases hrun : perform r a with ⟨r', g | reply⟩
  · rw [hrun] at h
    cases h
  · rw [hrun] at h
    cases h
    dsimp only
    rcases performAll r' as with ⟨r'', g | replies⟩ <;> rfl

theorem ending_append (h : ending (performAll r as) = (r₁, none)) (bs : List (Action α)) :
    ending (performAll r (as ++ bs)) = ending (performAll r₁ bs) := by
  induction as generalizing r with
  | nil =>
      cases h
      rfl
  | cons a as ih =>
      rcases ha : ending (perform r a) with ⟨r', _ | g⟩
      · rw [ending_cons ha] at h
        rw [List.cons_append, ending_cons ha, ih h]
      · rw [ending_cons_of_failed ha] at h
        cases h

end

/-! ## What is done -/

/-- The report at the end of a block whose body ends so. -/
def reported : Option Failure → List Deed
  | none => []
  | some f =>
    match Reporter.statement? f with
    | none => []
    | some (d, _) => [.failure d]

mutual

/-- What an action does with a reporter, in order. -/
def deeds (r : Reporter) : Action α → List Deed
  | registerLine path line number => [.line path line number]
  | removeLine path => [.line path none none]
  | registerStep rule text => [.step rule text]
  | warn d => [.warning d]
  | report d => [.failure d]
  | locate | fail _ | answer _ => []
  | watch events _ => events.map .ofEvent
  | block body => deedsAll r body ++ reported (ending (performAll r body)).2

/-- What actions do up to the first that fails. -/
def deedsAll (r : Reporter) : List (Action α) → List Deed
  | [] => []
  | a :: as => deeds r a ++
    match ending (perform r a) with
    | (_, some _) => []
    | (r₁, none) => deedsAll r₁ as

end

section

variable {r r₁ : Reporter} {a : Action α} {as : List (Action α)} {f : Failure}

theorem deedsAll_cons_of_failed (h : ending (perform r a) = (r₁, some f))
    (as : List (Action α)) : deedsAll r (a :: as) = deeds r a := by
  rw [deedsAll, h]
  exact List.append_nil _

theorem deedsAll_cons (h : ending (perform r a) = (r₁, none)) (as : List (Action α)) :
    deedsAll r (a :: as) = deeds r a ++ deedsAll r₁ as := by
  rw [deedsAll, h]

theorem deedsAll_append (h : ending (performAll r as) = (r₁, none)) (bs : List (Action α)) :
    deedsAll r (as ++ bs) = deedsAll r as ++ deedsAll r₁ bs := by
  induction as generalizing r with
  | nil =>
      cases h
      rfl
  | cons a as ih =>
      rcases ha : ending (perform r a) with ⟨r', _ | g⟩
      · rw [ending_cons ha] at h
        rw [List.cons_append, deedsAll_cons ha, deedsAll_cons ha, ih h, List.append_assoc]
      · rw [ending_cons_of_failed ha] at h
        cases h

end

/-! ## The reporter afterwards -/

/-- The end of a block makes the report, if there is one. -/
theorem close_fst (r : Reporter) (f : Option Failure) :
    (close (r, f)).1 = r.enactAll (reported f) := by
  cases f with
  | none => rfl
  | some f =>
      rw [close, reported]
      cases h : Reporter.statement? f with
      | none =>
          rw [Reporter.settle, h]
          rfl
      | some statement =>
          rw [Reporter.settle_of_statement? h]
          rfl

mutual

/-- The reporter after an action is what the deeds make of it. -/
theorem perform_fst (r : Reporter) (a : Action α) : (perform r a).1 = r.enactAll (deeds r a) := by
  cases a with
  | registerLine path line number => rfl
  | removeLine path => rfl
  | registerStep rule text => rfl
  | warn d => rfl
  | report d =>
      have hreport : (r.report d).1 = r.enactAll [.failure d] := rfl
      rw [perform, deeds, ← hreport]
      rcases r.report d with ⟨r', _ | exit⟩ <;> rfl
  | locate => rfl
  | fail f => rfl
  | answer a => rfl
  | watch events outcome => rw [perform, deeds, Reporter.enactAll_ofEvent]
  | block body =>
      have hbody := performAll_fst r body
      have hblock := congrArg Prod.fst (ending_block r body)
      rw [deeds, Reporter.enactAll_append, ← hbody]
      exact hblock.trans (close_fst _ _)

theorem performAll_fst (r : Reporter) (as : List (Action α)) :
    (performAll r as).1 = r.enactAll (deedsAll r as) := by
  cases as with
  | nil => rfl
  | cons a as =>
      have ha := perform_fst r a
      rcases h : ending (perform r a) with ⟨r₁, _ | f⟩
      · obtain rfl : (perform r a).1 = r₁ := congrArg Prod.fst h
        have hcons := congrArg Prod.fst (ending_cons h as)
        rw [deedsAll_cons h, Reporter.enactAll_append, ← ha]
        exact hcons.trans (performAll_fst _ as)
      · obtain rfl : (perform r a).1 = r₁ := congrArg Prod.fst h
        have hcons := congrArg Prod.fst (ending_cons_of_failed h as)
        rw [deedsAll_cons_of_failed h, ← ha]
        exact hcons

end

theorem fatal_of_ending_perform {r r₁ : Reporter} {a : Action α} {f : Option Failure}
    (h : ending (perform r a) = (r₁, f)) : r₁.fatal = r.fatal := by
  obtain rfl : (perform r a).1 = r₁ := congrArg Prod.fst h
  rw [perform_fst, Reporter.fatal_enactAll]

theorem fatal_of_ending_performAll {r r₁ : Reporter} {as : List (Action α)} {f : Option Failure}
    (h : ending (performAll r as) = (r₁, f)) : r₁.fatal = r.fatal := by
  obtain rfl : (performAll r as).1 = r₁ := congrArg Prod.fst h
  rw [performAll_fst, Reporter.fatal_enactAll]

/-! ## Fatal reporters -/

/-- At most one failure was reported, and that was the last thing done: the run has exited. -/
def ExitsAtReport (done : List Deed) (outcome : Option Failure) : Prop :=
  (∀ d, .failure d ∉ done) ∨
    ∃ before d, done = before ++ [.failure d] ∧ (∀ d', .failure d' ∉ before) ∧
      outcome = some (.exit (.int 1))

/-- So nothing was reported if the run ended otherwise. -/
theorem ExitsAtReport.notMem {done : List Deed} {outcome : Option Failure}
    (h : ExitsAtReport done outcome) (hne : outcome ≠ some (.exit (.int 1))) (d : Diagnostic) :
    .failure d ∉ done := by
  obtain hnone | ⟨before, d', rfl, hbefore, hexit⟩ := h
  · exact hnone d
  · exact absurd hexit hne

/-- What is done first reports nothing, and what is done then may. -/
theorem ExitsAtReport.append {done more : List Deed} {outcome : Option Failure}
    (hdone : ∀ d, .failure d ∉ done) (h : ExitsAtReport more outcome) :
    ExitsAtReport (done ++ more) outcome := by
  obtain hmore | ⟨before, d, rfl, hbefore, hexit⟩ := h
  · exact .inl fun d hd => (List.mem_append.mp hd).elim (hdone d) (hmore d)
  · refine .inr ⟨done ++ before, d, (List.append_assoc ..).symm, fun d' hd' => ?_, hexit⟩
    exact (List.mem_append.mp hd').elim (hdone d') (hbefore d')

/-- A fatal reporter exits with the report that ends a block. -/
theorem exitsAtReport_close {r : Reporter} (hr : r.fatal = true) {done : List Deed}
    {f : Option Failure} (h : ExitsAtReport done f) :
    ExitsAtReport (done ++ reported f) (close (r, f)).2 := by
  cases f with
  | none => exact .append (h.notMem nofun) (.inl fun _ => List.not_mem_nil)
  | some f =>
      cases hstatement : Reporter.statement? f with
      | none =>
          rw [reported, hstatement, List.append_nil, close, Reporter.settle, hstatement]
          exact h
      | some statement =>
          obtain ⟨d, settled⟩ := statement
          have hne : some f ≠ some (.exit (.int 1)) := by
            rintro ⟨rfl⟩
            cases hstatement
          rw [reported, hstatement, close, Reporter.settle_of_fatal hstatement hr]
          exact .append (h.notMem hne) (.inr ⟨[], d, rfl, fun _ => List.not_mem_nil, rfl⟩)

mutual

/-- A fatal reporter exits with its first report. -/
theorem exitsAtReport_perform {r : Reporter} (hr : r.fatal = true) (a : Action α) :
    ExitsAtReport (deeds r a) (ending (perform r a)).2 := by
  cases a with
  | registerLine path line number => exact .inl fun d hd => by simp [deeds] at hd
  | removeLine path => exact .inl fun d hd => by simp [deeds] at hd
  | registerStep rule text => exact .inl fun d hd => by simp [deeds] at hd
  | warn d => exact .inl fun d hd => by simp [deeds] at hd
  | report d =>
      refine .inr ⟨[], d, rfl, fun _ => List.not_mem_nil, ?_⟩
      rw [perform, Reporter.report_of_fatal hr]
      rfl
  | locate => exact .inl fun _ => List.not_mem_nil
  | fail f => exact .inl fun _ => List.not_mem_nil
  | answer a => exact .inl fun _ => List.not_mem_nil
  | watch events outcome =>
      refine .inl fun d hd => ?_
      obtain ⟨event, -, hevent⟩ := List.mem_map.mp hd
      cases event <;> cases hevent
  | block body =>
      have hbody := exitsAtReport_performAll hr body
      rw [ending_block, deeds]
      rcases hend : ending (performAll r body) with ⟨r', f⟩
      rw [hend] at hbody
      exact exitsAtReport_close ((fatal_of_ending_performAll hend).trans hr) hbody

theorem exitsAtReport_performAll {r : Reporter} (hr : r.fatal = true) (as : List (Action α)) :
    ExitsAtReport (deedsAll r as) (ending (performAll r as)).2 := by
  cases as with
  | nil => exact .inl fun _ => List.not_mem_nil
  | cons a as =>
      have ha := exitsAtReport_perform hr a
      rcases hend : ending (perform r a) with ⟨r', _ | f⟩
      · rw [hend] at ha
        rw [deedsAll_cons hend, ending_cons hend]
        exact .append (ha.notMem nofun)
          (exitsAtReport_performAll ((fatal_of_ending_perform hend).trans hr) as)
      · rw [hend] at ha
        rw [deedsAll_cons_of_failed hend, ending_cons_of_failed hend]
        exact ha

end

/-! ## Places -/

/-- What stands before and after a place, in a program or in a block. -/
structure Surroundings (α : Type) where
  before : List (Action α)
  after : List (Action α)

/-- What is left to perform after a place. -/
def left (list : Surroundings α) : List (Surroundings α) → List (Action α)
  | [] => list.after
  | inner :: blocks => block (left inner blocks) :: list.after

/-- To perform the program is to do these deeds and to perform the rest. -/
structure GoesOn (r : Reporter) (program : List (Action α)) (done : List Deed) (r' : Reporter)
    (rest : List (Action α)) : Prop where
  done : deedsAll r program = done ++ deedsAll r' rest
  ending : ending (performAll r program) = ending (performAll r' rest)

section

variable {r r' r₁ : Reporter} {a : Action α} {as rest : List (Action α)} {done : List Deed}

theorem GoesOn.append (hbefore : Action.ending (performAll r as) = (r₁, none))
    {bs : List (Action α)} (h : GoesOn r₁ bs done r' rest) :
    GoesOn r (as ++ bs) (deedsAll r as ++ done) r' rest where
  done := by rw [deedsAll_append hbefore, h.done, List.append_assoc]
  ending := by rw [ending_append hbefore, h.ending]

/-- What is left of a block is a block. -/
theorem GoesOn.block (h : GoesOn r as done r' rest) (next : List (Action α)) :
    GoesOn r (.block as :: next) done r' (.block rest :: next) := by
  have hdeeds : deeds r (.block as) = done ++ deeds r' (.block rest) := by
    rw [deeds, deeds, h.done, h.ending, List.append_assoc]
  have hblock := ending_block r as
  rw [h.ending, ← ending_block] at hblock
  rcases hend : Action.ending (perform r' (.block rest)) with ⟨r₂, _ | f⟩
  · rw [hend] at hblock
    refine ⟨?_, by rw [ending_cons hblock, ending_cons hend]⟩
    rw [deedsAll_cons hblock, deedsAll_cons hend, hdeeds, List.append_assoc]
  · rw [hend] at hblock
    refine ⟨?_, by rw [ending_cons_of_failed hblock, ending_cons_of_failed hend]⟩
    rw [deedsAll_cons_of_failed hblock, deedsAll_cons_of_failed hend, hdeeds]

end

/-! ## Unwinding -/

section

variable {r r₁ r' : Reporter} {a : Action α} {f : Failure} {d : Diagnostic}
  {list innermost : Surroundings α} {blocks : List (Surroundings α)}

end

section

variable {r r₁ r' : Reporter} {a : Action α} {f : Failure} {list : Surroundings α}
  {blocks : List (Surroundings α)}

end

/-- **What a program prints.**  Its deeds print their lines, in order and each once: every
report has its own lines, with the place that the deeds before it tell. -/
theorem output_performAll (fatal verbose painted : Bool) (program : List (Action α)) :
    ∃ lines,
      Reporter.Shown fatal verbose painted (deedsAll (.fresh fatal verbose painted) program) lines ∧
      (performAll (.fresh fatal verbose painted) program).1.output = Reporter.joined lines := by
  obtain ⟨lines, hshown, hprints⟩ := Reporter.exists_shown fatal verbose painted
    (deedsAll (.fresh fatal verbose painted) program)
  refine ⟨lines, hshown, ?_⟩
  rw [performAll_fst, hprints.output]
  exact String.empty_append

/-- A failure that is not settled is reported by each of two blocks. -/
example : performAll (.fresh false false false)
      [.block [.block [.fail (.other "KeyError" "'x'")], .locate]] =
    ((Reporter.fresh false false false).enactAll
        (List.replicate 2 (.failure (Reporter.internalDiagnostic "KeyError" "'x'"))),
      (.error (.other "KeyError" "'x'") : Except Failure (List (Reply Unit)))) := rfl

end BinaryLambda.Action
