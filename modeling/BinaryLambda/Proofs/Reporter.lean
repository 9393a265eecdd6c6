import BinaryLambda.Reporter
import Mathlib.Tactic.Common

set_option autoImplicit false

/-!
# Reporters: what is printed

The lines that a reporter prints for an event or a failure depend on how it is set up and
on the place that it names (`eventLines`, `failureLines`), not on what it has printed or
whether it has failed before.  `Prints` says what work under a reporter adds to the output.
The place is that of a line which is registered while no other is being worked on
(`location_registerLine`).
-/

namespace BinaryLambda.Reporter

/-! ## Lines -/

/-- The lines that are printed for an event. -/
def eventLines (verbose painted : Bool) (place : String) : Event → List String
  | .step text => if verbose then [Paint.boldIn painted .cyan "β" ++ "  " ++ text] else []
  | .unfinished text cap =>
    [Paint.bold painted place ++ Paint.boldIn painted .magenta "warning: " ++
      (Event.unfinishedDiagnostic text cap).highlighted painted]

/-- The lines that are printed for a failure. -/
def failureLines (painted : Bool) (place : String) (d : Diagnostic) : List String :=
  ((if d.internal then Paint.boldIn painted .red "[internal] " else "") ++
      Paint.boldIn painted .red (place ++ "error: ") ++ d.highlighted painted) ::
    if underlines d then [d.underline painted .red] else []

/-- The text of lines, one after the other. -/
def joined (lines : List String) : String := String.join (lines.map (· ++ "\n"))

theorem joined_append (lines lines' : List String) :
    joined (lines ++ lines') = joined lines ++ joined lines' := by
  rw [joined, List.map_append, String.join_append]
  rfl

theorem output_eq (r : Reporter) : r.output = joined r.printed.toList := by
  rw [output, ← Array.foldl_toList, joined, String.join, List.foldl_map]
  simp only [String.append_assoc]

/-! ## Printing -/

/-- The reporter `r` has become `r'` by printing `lines`, and by a failure if `failure`
says so.  Its table is left open. -/
structure Prints (lines : List String) (failure : Bool) (r r' : Reporter) : Prop where
  fatal : r'.fatal = r.fatal
  verbose : r'.verbose = r.verbose
  painted : r'.painted = r.painted
  output : r'.output = r.output ++ joined lines
  failed : r'.failed = (r.failed || failure)

theorem Prints.refl (r : Reporter) : Prints [] false r r :=
  ⟨rfl, rfl, rfl, String.append_empty.symm, (Bool.or_false _).symm⟩

theorem Prints.trans {lines lines' : List String} {failure failure' : Bool} {r r' r'' : Reporter}
    (h : Prints lines failure r r') (h' : Prints lines' failure' r' r'') :
    Prints (lines ++ lines') (failure || failure') r r'' where
  fatal := h'.fatal.trans h.fatal
  verbose := h'.verbose.trans h.verbose
  painted := h'.painted.trans h.painted
  output := by rw [h'.output, h.output, joined_append, String.append_assoc]
  failed := by rw [h'.failed, h.failed, Bool.or_assoc]

/-! Lines that are being worked on come and go without a print. -/

theorem Prints.registerLine {lines : List String} {failure : Bool} {r r' : Reporter}
    (h : Prints lines failure r r') (path : String) (line : Option String)
    (number : Option Int) : Prints lines failure r (r'.registerLine path line number) :=
  ⟨h.fatal, h.verbose, h.painted, h.output, h.failed⟩

theorem Prints.removeLine {lines : List String} {failure : Bool} {r r' : Reporter}
    (h : Prints lines failure r r') (path : String) :
    Prints lines failure r (r'.removeLine path) :=
  h.registerLine path none none

theorem Prints.forgetLines {lines : List String} {failure : Bool} {r r' : Reporter}
    (h : Prints lines failure r r') : Prints lines failure r r'.forgetLines :=
  ⟨h.fatal, h.verbose, h.painted, h.output, h.failed⟩

theorem prints_print (r : Reporter) (line : String) : Prints [line] false r (r.print line) where
  fatal := rfl
  verbose := rfl
  painted := rfl
  output := by rw [output_eq, output_eq, ← joined_append, print, Array.toList_push]
  failed := (Bool.or_false _).symm

/-- A step is printed if the reporter is verbose. -/
theorem prints_registerStep (r : Reporter) (rule text : String) :
    Prints (if r.verbose then [Paint.boldIn r.painted .cyan rule ++ "  " ++ text] else []) false r
      (r.registerStep rule text) := by
  have hstep : Prints [] false r { r with steps := r.steps.push (rule, text) } :=
    ⟨rfl, rfl, rfl, String.append_empty.symm, (Bool.or_false _).symm⟩
  rw [registerStep]
  dsimp only
  split_ifs
  · exact hstep.trans (prints_print _ _)
  · exact hstep

theorem table_registerStep (r : Reporter) (rule text : String) :
    (r.registerStep rule text).table = r.table := by
  rw [registerStep]
  dsimp only
  split_ifs <;> rfl

theorem steps_registerStep (r : Reporter) (rule text : String) :
    (r.registerStep rule text).steps = r.steps.push (rule, text) := by
  rw [registerStep]
  dsimp only
  split_ifs <;> rfl

/-- An event prints its lines. -/
theorem prints_notice (r : Reporter) (event : Event) :
    Prints (eventLines r.verbose r.painted r.location event) false r (r.notice event) := by
  cases event with
  | step text => exact prints_registerStep r "β" text
  | unfinished text cap => exact prints_print r _

theorem table_notice (r : Reporter) (event : Event) : (r.notice event).table = r.table := by
  cases event with
  | step text => exact table_registerStep r "β" text
  | unfinished text cap => rfl

theorem location_congr {r r' : Reporter} (h : r'.table = r.table) : r'.location = r.location := by
  rw [location, location, h]

/-- Events print their lines, and the lines that are being worked on stay. -/
theorem prints_follow (r : Reporter) (events : List Event) :
    Prints (events.flatMap (eventLines r.verbose r.painted r.location)) false r
        (r.follow events) ∧ (r.follow events).table = r.table := by
  induction events generalizing r with
  | nil => exact ⟨.refl r, rfl⟩
  | cons event events ih =>
      have hfirst := prints_notice r event
      obtain ⟨hrest, htable⟩ := ih (r.notice event)
      rw [hfirst.verbose, hfirst.painted, location_congr (table_notice r event)] at hrest
      rw [List.flatMap_cons]
      exact ⟨hfirst.trans hrest, htable.trans (table_notice r event)⟩

/-- The record that is kept of an event, if it is one of a step. -/
def record? : Event → Option (String × String)
  | .step text => some ("β", text)
  | .unfinished _ _ => none

theorem steps_notice (r : Reporter) (event : Event) :
    (r.notice event).steps.toList = r.steps.toList ++ (record? event).toList := by
  cases event with
  | step text =>
      rw [notice, steps_registerStep]
      exact Array.toList_push
  | unfinished text cap => exact (List.append_nil _).symm

/-- The steps among the events are recorded, in their order. -/
theorem steps_follow (r : Reporter) (events : List Event) :
    (r.follow events).steps.toList = r.steps.toList ++ events.filterMap record? := by
  induction events generalizing r with
  | nil => exact (List.append_nil _).symm
  | cons event events ih =>
      change ((r.notice event).follow events).steps.toList = _
      rw [ih, steps_notice, List.append_assoc]
      cases event <;> rfl

/-- A failure prints its lines. -/
theorem prints_printFailure (r : Reporter) (d : Diagnostic) :
    Prints (failureLines r.painted r.location d) true r (r.printFailure d) := by
  have hfailed : Prints [] true r { r with failed := true } :=
    ⟨rfl, rfl, rfl, String.append_empty.symm, (Bool.or_true _).symm⟩
  rw [printFailure, failureLines]
  dsimp only
  split_ifs
  all_goals first
    | exact hfailed.trans ((prints_print _ _).trans (prints_print _ _))
    | exact hfailed.trans (prints_print _ _)

theorem table_printFailure (r : Reporter) (d : Diagnostic) :
    (r.printFailure d).table = r.table := by
  rw [printFailure]
  dsimp only
  split_ifs <;> rfl

theorem steps_printFailure (r : Reporter) (d : Diagnostic) :
    (r.printFailure d).steps = r.steps := by
  rw [printFailure]
  dsimp only
  split_ifs <;> rfl

/-- A fatal reporter asks to exit, and it keeps its lines. -/
theorem report_of_fatal {r : Reporter} (h : r.fatal = true) (d : Diagnostic) :
    r.report d = (r.printFailure d, some (.exit (.int 1))) :=
  if_pos ((prints_printFailure r d).fatal.trans h)

/-- Any other goes on, and it forgets them. -/
theorem report_of_not_fatal {r : Reporter} (h : r.fatal = false) (d : Diagnostic) :
    r.report d = ((r.printFailure d).forgetLines, none) :=
  if_neg (Bool.eq_false_iff.mp ((prints_printFailure r d).fatal.trans h))

/-- The end of a block makes the report.  If that does not ask to exit, it goes by whether
the report settles the failure. -/
theorem settle_of_statement? {r : Reporter} {f : Failure} {d : Diagnostic} {settled : Bool}
    (hstatement : statement? f = some (d, settled)) :
    r.settle f = ((r.report d).1, (r.report d).2.or (if settled then none else some f)) := by
  rw [settle, hstatement]
  dsimp only
  rcases r.report d with ⟨r', _ | exit⟩ <;> rfl

/-- What a failure says is reported, and all lines are forgotten, unless the reporter is
fatal. -/
theorem settle_eq {r : Reporter} {f : Failure} {d : Diagnostic} {settled : Bool}
    (hstatement : statement? f = some (d, settled)) (hfatal : r.fatal = false) :
    r.settle f = ((r.printFailure d).forgetLines, if settled then none else some f) := by
  rw [settle_of_statement? hstatement, report_of_not_fatal hfatal]
  rfl

/-! ## Places -/

/-- No line is being worked on. -/
def NoLine (table : List Entry) : Prop := ∀ e ∈ table, e.line = none

theorem find?_place {entry : Entry} (hentry : entry.line.isSome = true) {table : List Entry}
    (h : NoLine table) : (place entry table).find? (·.line.isSome) = some entry := by
  induction table with
  | nil => exact List.find?_cons_of_pos hentry
  | cons e table ih =>
      obtain ⟨he, htable⟩ := List.forall_mem_cons.mp h
      rw [place]
      split_ifs
      · exact List.find?_cons_of_pos hentry
      · rw [List.find?_cons_of_neg (by simp [he])]
        exact ih htable

/-- The place of a line that is registered while no line is being worked on. -/
theorem location_registerLine {r : Reporter} (h : NoLine r.table) (path text : String)
    (number : Nat) :
    (r.registerLine path (some text) (some number)).location = s!"{path}:{number}: " := by
  rw [location, registerLine, find?_place rfl h]
  rfl

/-- What is placed last at a path stays. -/
theorem place_place (path : String) (line line' : Option String) (number number' : Option Int)
    (table : List Entry) :
    place ⟨path, line', number'⟩ (place ⟨path, line, number⟩ table) =
      place ⟨path, line', number'⟩ table := by
  induction table with
  | nil => simp [place]
  | cons e table ih =>
      by_cases he : e.path = path
      · simp [place, he]
      · simp [place, he, ih]

theorem NoLine.place {table : List Entry} (h : NoLine table) (path : String) :
    NoLine (place ⟨path, none, none⟩ table) := by
  induction table with
  | nil => exact List.forall_mem_singleton.mpr rfl
  | cons e table ih =>
      obtain ⟨he, htable⟩ := List.forall_mem_cons.mp h
      rw [Reporter.place]
      split_ifs
      · exact List.forall_mem_cons.mpr ⟨rfl, htable⟩
      · exact List.forall_mem_cons.mpr ⟨he, ih htable⟩

theorem noLine_forgetLines (r : Reporter) : NoLine r.forgetLines.table := by
  intro e he
  obtain ⟨e', _, rfl⟩ := List.mem_map.mp he
  rfl

end BinaryLambda.Reporter
