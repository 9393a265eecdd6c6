import BinaryLambda.CommandLine.Run
import BinaryLambda.Proofs.Reporter
import BinaryLambda.Proofs.Surface.Refusal
import BinaryLambda.Proofs.Term.Mismatch

set_option autoImplicit false

/-!
# Command line: every line is run for itself

Between two lines, the reporter is ready for any other: it has no line that is being worked
on (`Ready`).  Running a line prints what the line contributes, whatever was printed before,
and leaves the reporter ready (`stepLine_spec`).  So the output of the program is made of
one contribution for each line of its source, and its status tells whether one of them
failed (`run_eq_contributions`).  A line without a cap is the exception: it ends the program.
-/

namespace BinaryLambda

/-- What a fault of a program says can be said: its template takes its snippets. -/
theorem Program.Fault.checked_diagnostic (e : Program.Fault) :
    e.diagnostic.checked = .ok e.diagnostic := by
  cases e with
  | text e =>
      cases e with
      | stray e => exact e.diagnostic_spec.2.2.2
      | grammar e => exact e.diagnostic_spec.2.2.2
  | surface e =>
      cases e with
      | stray e => exact e.diagnostic_spec.2.2.2
      | mistake s place kind => exact (Surface.Fault.mistake_diagnostic_spec s place kind).2.2.2
  | freshName e => exact Diagnostic.checked_plain rfl
  | unbound e => exact Diagnostic.checked_plain rfl

namespace CommandLine

open Reporter (Prints NoLine eventLines failureLines joined)

/-! ## What a line contributes -/

/-- What a report says of the fault of a line. -/
def LineFault.diagnostic : LineFault → Diagnostic
  | program e => e.diagnostic
  | noCap =>
    Reporter.internalDiagnostic "TypeError" "'<' not supported between instances of 'list' and 'int'"

/-- The lines that are printed for a line with a term: those of what a watcher sees, and then
the result, or the report of what failed. -/
def TermLine.printed (line : TermLine) (o : Options) (painted : Bool) : List String :=
  let place := s!"{line.path}:{line.number}: "
  let (events, outcome) := runLine o line.text
  events.flatMap (eventLines o.verbose painted place) ++
    match outcome with
    | .ok text => [text]
    | .error e => failureLines painted place e.diagnostic

/-- Whether there is a report for the term of a text instead of a result. -/
def failsOn (o : Options) (text : String) : Bool :=
  match (runLine o text).2 with
  | .ok _ => false
  | .error _ => true

/-- What the term of a text hands on after its report: nothing, unless it needs a cap that
there is not. -/
def handedOn (o : Options) (text : String) : Option Failure :=
  match (runLine o text).2 with
  | .error .noCap => some LineFault.noCap.failure
  | _ => none

/-! ## One line -/

/-- Between two lines of a run, a reporter is ready for any line. -/
structure Ready (o : Options) (painted : Bool) (r : Reporter) : Prop where
  fatal : r.fatal = false
  verbose : r.verbose = o.verbose
  painted : r.painted = painted
  noLine : NoLine r.table

theorem ready_fresh (o : Options) (painted : Bool) :
    Ready o painted (.fresh false o.verbose painted) :=
  ⟨rfl, rfl, rfl, List.forall_mem_nil _⟩

theorem Ready.of_prints {o : Options} {painted : Bool} {r r' : Reporter} {printed : List String}
    {failure : Bool} (h : Ready o painted r) (hprints : Prints printed failure r r')
    (hnoLine : NoLine r'.table) : Ready o painted r' where
  fatal := hprints.fatal.trans h.fatal
  verbose := hprints.verbose.trans h.verbose
  painted := hprints.painted.trans h.painted
  noLine := hnoLine

/-- While a line is run, what is seen of the run is printed with its place. -/
theorem Ready.follow {o : Options} {painted : Bool} {r : Reporter} (h : Ready o painted r)
    (line : TermLine) (events : List Event) :
    let r' := (r.registerLine line.path (some line.text) (some line.number)).follow events
    let place := s!"{line.path}:{line.number}: "
    Prints (events.flatMap (eventLines o.verbose painted place)) false r r' ∧
      r'.location = place ∧ NoLine (r'.removeLine line.path).table := by
  dsimp only
  have hplace := Reporter.location_registerLine h.noLine line.path line.text line.number
  obtain ⟨hprints, htable⟩ := Reporter.prints_follow
    (r.registerLine line.path (some line.text) (some line.number)) events
  refine ⟨?_, (Reporter.location_congr htable).trans hplace, ?_⟩
  · rw [hplace] at hprints
    have hregistered : Prints [] false r
        (r.registerLine line.path (some line.text) (some line.number)) :=
      (Prints.refl r).registerLine ..
    rw [hregistered.verbose, hregistered.painted, h.verbose, h.painted] at hprints
    exact hregistered.trans hprints
  · rw [Reporter.removeLine, Reporter.registerLine, htable, Reporter.registerLine]
    dsimp only
    rw [Reporter.place_place]
    exact h.noLine.place line.path

/-- What a report says of a fault, and whether it settles it. -/
theorem LineFault.statement?_failure (e : LineFault) :
    Reporter.statement? e.failure = some (e.diagnostic, decide (e ≠ .noCap)) := by
  cases e <;> rfl

/-- Running a line prints what it contributes, takes note of its failure, and leaves the
reporter ready. -/
theorem stepLine_spec {o : Options} {painted : Bool} {r : Reporter} (h : Ready o painted r)
    (line : TermLine) :
    ∃ r', stepLine o r line = (r', handedOn o line.text) ∧ Ready o painted r' ∧
      Prints (line.printed o painted) (failsOn o line.text) r r' := by
  rw [stepLine, TermLine.printed, failsOn, handedOn]
  cases runLine o line.text with
  | mk events outcome =>
      obtain ⟨hprints, hplace, hremoved⟩ := h.follow line events
      dsimp only
      cases outcome with
      | ok text =>
          have hresult := (hprints.trans (Reporter.prints_print _ text)).removeLine line.path
          exact ⟨_, rfl, h.of_prints hresult hremoved, hresult⟩
      | error e =>
          have hreport := (hprints.trans (Reporter.prints_printFailure _ e.diagnostic)).forgetLines
          rw [hplace, hprints.painted, h.painted] at hreport
          have hsettle := Reporter.settle_eq e.statement?_failure (hprints.fatal.trans h.fatal)
          dsimp only
          rw [hsettle]
          have hforgotten := Reporter.noLine_forgetLines
          cases e with
          | program e =>
              have hdone := hreport.removeLine line.path
              exact ⟨_, rfl, h.of_prints hdone ((hforgotten _).place line.path), hdone⟩
          | noCap => exact ⟨_, rfl, h.of_prints hreport (hforgotten _), hreport⟩

/-- Running lines prints what they contribute, one after the other. -/
theorem runLinesFrom_spec {o : Options} {painted : Bool} {r : Reporter} (h : Ready o painted r)
    {lines : List TermLine} (hlines : ∀ line ∈ lines, handedOn o line.text = none) :
    ∃ r', runLinesFrom o r lines = (r', none) ∧
      Prints (lines.flatMap (·.printed o painted)) (lines.any (failsOn o ·.text)) r r' := by
  induction lines generalizing r with
  | nil => exact ⟨r, rfl, .refl r⟩
  | cons line lines ih =>
      obtain ⟨hline, hrest⟩ := List.forall_mem_cons.mp hlines
      obtain ⟨r₁, hstep, hready, hprints⟩ := stepLine_spec h line
      obtain ⟨r₂, hrun, hprints'⟩ := ih hready hrest
      refine ⟨r₂, ?_, hprints.trans hprints'⟩
      rw [runLinesFrom, hstep, hline]
      exact hrun

/-- A failure that is handed on ends the run; no line after it is run. -/
theorem runLinesFrom_of_handedOn {o : Options} {painted : Bool} {r : Reporter}
    (h : Ready o painted r) (before : List TermLine) (line : TermLine) (after : List TermLine)
    {f : Failure} (hbefore : ∀ line ∈ before, handedOn o line.text = none)
    (hline : handedOn o line.text = some f) :
    ∃ r', runLinesFrom o r (before ++ line :: after) = (r', some f) ∧
      r'.output = r.output ++ joined ((before ++ [line]).flatMap (·.printed o painted)) := by
  induction before generalizing r with
  | nil =>
      obtain ⟨r₁, hstep, -, hprints⟩ := stepLine_spec h line
      refine ⟨r₁, ?_, by simpa using hprints.output⟩
      rw [List.nil_append, runLinesFrom, hstep, hline]
  | cons line' before ih =>
      obtain ⟨hline', hrest⟩ := List.forall_mem_cons.mp hbefore
      obtain ⟨r₁, hstep, hready, hprints⟩ := stepLine_spec h line'
      obtain ⟨r₂, hrun, houtput⟩ := ih hready hrest
      refine ⟨r₂, ?_, ?_⟩
      · rw [List.cons_append, runLinesFrom, hstep, hline']
        exact hrun
      · rw [houtput, hprints.output, List.cons_append, List.flatMap_cons, Reporter.joined_append,
          String.append_assoc]

/-- If the terms that are to be reduced have a cap, a line fails as programs do. -/
theorem exists_program_of_runLine {o : Options} (hcap : o.reduces = true → o.cap ≠ none)
    {text : String} {e : LineFault} (h : (runLine o text).2 = .error e) :
    ∃ p, e = .program p := by
  cases e with
  | program p => exact ⟨p, rfl⟩
  | noCap =>
      rw [runLine] at h
      split at h
      · cases h
      · split at h
        · rename_i hreduces
          split at h
          · rename_i hnone
            exact absurd hnone (hcap hreduces)
          · dsimp only at h
            split at h
            · cases h
            · obtain ⟨_, -, hfault⟩ := mapError_eq_error_iff.mp h
              cases hfault
        · obtain ⟨_, -, hfault⟩ := mapError_eq_error_iff.mp h
          cases hfault

/-! ## The lines of a source -/

/-- The options take the lines from this path.  Arguments come before a file, and a file
before the standard input. -/
inductive Supplies (o : Options) (s : Sources) : String → List String → Prop where
  | arguments : o.terms ≠ [] → Supplies o s argumentsPath o.terms
  | file {path text : String} {bytes : ByteArray} : o.wantedFile? = some path →
      path.contains '\x00' = false → s.file path = some bytes →
      Text.Utf8.decode bytes = .ok text → Supplies o s path (Text.lines text)
  | input : o.wantedFile? = none → o.terms = [] → Supplies o s inputPath (Text.lines s.input)

/-- What is read are the lines with a term, numbered in their source. -/
theorem readLines_eq_ok_iff {o : Options} {s : Sources} {lines : List TermLine} :
    readLines o s = .ok lines ↔ ∃ path raw, Supplies o s path raw ∧ termLines path raw = lines := by
  constructor
  · intro h
    rw [readLines] at h
    split at h
    · rename_i path hwanted
      split_ifs at h with hnull
      split at h
      · cases h
      · rename_i bytes hfile
        split at h
        · cases h
        · rename_i text hdecode
          cases h
          exact ⟨path, _, .file hwanted (Bool.eq_false_iff.mpr hnull) hfile hdecode, rfl⟩
    · rename_i hwanted
      split_ifs at h with hterms
      · cases h
        exact ⟨_, _, .input hwanted (List.isEmpty_iff.mp hterms), rfl⟩
      · cases h
        exact ⟨_, _, .arguments (by simpa using hterms), rfl⟩
  · rintro ⟨path, raw, hsupplies, rfl⟩
    rw [readLines]
    cases hsupplies with
    | arguments hterms =>
        have hwanted : o.wantedFile? = none := by simp [Options.wantedFile?, hterms]
        rw [hwanted]
        exact if_neg (by simpa using hterms)
    | file hwanted hnull hfile hdecode =>
        rw [hwanted]
        dsimp only
        rw [hnull, hfile]
        dsimp only
        rw [hdecode]
        rfl
    | input hwanted hterms =>
        rw [hwanted]
        exact if_pos (List.isEmpty_iff.mpr hterms)

/-- What a line of a source contributes to the output: nothing if it holds no term. -/
def contribution (o : Options) (painted : Bool) (path : String) (number : Nat) (raw : String) :
    String :=
  if (preprocess raw).isEmpty then ""
  else joined ((TermLine.mk path number (preprocess raw)).printed o painted)

/-- Whether a line of a source holds a term that fails. -/
def fails (o : Options) (raw : String) : Bool :=
  !(preprocess raw).isEmpty && failsOn o (preprocess raw)

/-- The terms and the file that the options name have no say in what a line contributes. -/
theorem contribution_congr (o : Options) (terms : List String) (file : Option String) :
    contribution { o with terms, file } = contribution o ∧ fails { o with terms, file } = fails o :=
  ⟨rfl, rfl⟩

theorem joined_termLinesFrom (o : Options) (painted : Bool) (path : String) (number : Nat)
    (raw : List String) :
    joined ((termLinesFrom path number raw).flatMap (·.printed o painted)) =
      String.join ((raw.zipIdx number).map fun line =>
        contribution o painted path line.2 line.1) := by
  induction raw generalizing number with
  | nil => rfl
  | cons line raw ih =>
      rw [termLinesFrom, List.zipIdx_cons, List.map_cons, String.join_cons, ← ih, contribution]
      dsimp only
      split_ifs
      · rw [String.empty_append]
      · rw [List.flatMap_cons, Reporter.joined_append]

theorem any_termLinesFrom (o : Options) (path : String) (number : Nat) (raw : List String) :
    (termLinesFrom path number raw).any (failsOn o ·.text) = raw.any (fails o) := by
  induction raw generalizing number with
  | nil => rfl
  | cons line raw ih =>
      rw [termLinesFrom, List.any_cons, ← ih (number + 1), fails]
      split_ifs with hempty
      · rw [hempty, Bool.not_true, Bool.false_and, Bool.false_or]
      · rw [List.any_cons, Bool.eq_false_iff.mpr hempty, Bool.not_false, Bool.true_and]

/-! ## Runs of the program -/

/-- **Lines are run for themselves.**  If terms that are to be reduced have a cap, the only
failures of a line are diagnostics with a message, and every run whose lines are read
reaches the last of them.  It prints what each line contributes, in order, and its status
tells whether a line failed.  Both depend on nothing but the path, the number and the text of
the line and the options, where the terms and the file that these name have no say. -/
theorem run_eq_contributions (painted : Bool) {arguments : List String} {s : Sources}
    {o : Options} {lines : List TermLine} (hread : Options.read arguments = .ok o)
    (hlines : readLines o s = .ok lines) (hcap : o.reduces = true → o.cap ≠ none) :
    (∀ text e, (runLine o text).2 = .error e →
        ∃ d, e.failure = .diagnosed d ∧ d.checked = .ok d) ∧
      (∀ terms file, contribution { o with terms, file } = contribution o ∧
        fails { o with terms, file } = fails o) ∧
      ∃ path raw, Supplies o s path raw ∧
        run painted arguments s =
          ⟨String.join ((raw.zipIdx 1).map fun line =>
              contribution o painted path line.2 line.1), "",
            .finished (if raw.any (fails o) then 1 else 0)⟩ := by
  refine ⟨?_, contribution_congr o, ?_⟩
  · intro text e h
    obtain ⟨p, rfl⟩ := exists_program_of_runLine hcap h
    exact ⟨p.diagnostic, rfl, p.checked_diagnostic⟩
  · obtain ⟨path, raw, hsupplies, rfl⟩ := readLines_eq_ok_iff.mp hlines
    have hsettled : ∀ line ∈ termLines path raw, handedOn o line.text = none := by
      intro line _
      rw [handedOn]
      split
      · rename_i hline
        obtain ⟨p, hp⟩ := exists_program_of_runLine hcap hline
        cases hp
      · rfl
    obtain ⟨r, hrun, hprints⟩ := runLinesFrom_spec (ready_fresh o painted) hsettled
    refine ⟨path, raw, hsupplies, ?_⟩
    rw [run, hread]
    dsimp only
    rw [hlines]
    dsimp only
    rw [runLines, hrun]
    dsimp only
    rw [hprints.output, hprints.failed, termLines, joined_termLinesFrom, any_termLinesFrom]
    have hfresh : (Reporter.fresh false o.verbose painted).output = "" := rfl
    rw [hfresh, String.empty_append, Reporter.fresh, Bool.false_or]

/-- A comment contributes nothing, and a line that fails does not keep the next from being
run. -/
theorem run_eq_contributions_verbose :
    run false ["-v", "(λx.xy)", ";; nothing", "(x", "z"] ⟨fun _ => none, ""⟩ =
      ⟨"β  y\ny\n<args>:3: error: '(x' ended where a λ-term was expected\n  (x\n    ^\nz\n", "",
        .finished 1⟩ := by
  have hread : Options.read ["-v", "(λx.xy)", ";; nothing", "(x", "z"] =
      .ok { Options.initial with
        terms := ["(λx.xy)", ";; nothing", "(x", "z"], verbose := true } := by
    decide +kernel
  obtain ⟨-, -, path, raw, hsupplies, hrun⟩ :=
    run_eq_contributions (s := ⟨fun _ => none, ""⟩) false hread rfl (by simp [Options.initial])
  cases hsupplies with
  | arguments =>
      rw [hrun, Outcome.mk.injEq, Ending.finished.injEq]
      decide +kernel
  | file hwanted => cases hwanted
  | input _ hterms => cases hterms

/-- The options of two terms whose cap is dropped. -/
def uncapped : Options := { Options.initial with terms := ["x", "y"], cap := none }

/-- The first line that is to be reduced without a cap ends the program. -/
theorem run_without_cap :
    Options.read ["--max-steps=--", "x", "y"] = .ok uncapped ∧
      (runLine uncapped "x").2 = .error .noCap ∧
      run false ["--max-steps=--", "x", "y"] ⟨fun _ => none, ""⟩ =
        ⟨"[internal] <args>:1: error: " ++
          "unknown error: 'TypeError: '<' not supported between instances of 'list' and 'int''\n",
          "", .failed LineFault.noCap.failure⟩ := by
  have hread : Options.read ["--max-steps=--", "x", "y"] = .ok uncapped := by decide +kernel
  have hlines : readLines uncapped ⟨fun _ => none, ""⟩ =
      .ok [⟨"<args>", 1, "x"⟩, ⟨"<args>", 2, "y"⟩] := rfl
  have hline : runLine uncapped "x" = ([], .error .noCap) := by decide +kernel
  obtain ⟨r, hrun, houtput⟩ := runLinesFrom_of_handedOn (ready_fresh uncapped false) []
    ⟨"<args>", 1, "x"⟩ [⟨"<args>", 2, "y"⟩] (f := LineFault.noCap.failure)
    (List.forall_mem_nil _) (by rw [handedOn, hline])
  have hreport : r.output = "[internal] <args>:1: error: " ++
      "unknown error: 'TypeError: '<' not supported between instances of 'list' and 'int''\n" :=
    houtput.trans (by decide +kernel)
  refine ⟨hread, by rw [hline], ?_⟩
  rw [List.nil_append] at hrun
  rw [run, hread]
  dsimp only
  rw [hlines]
  dsimp only
  rw [runLines, hrun]
  dsimp only
  rw [hreport]

end CommandLine

end BinaryLambda
