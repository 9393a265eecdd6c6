import BinaryLambda.CommandLine.Usage
import BinaryLambda.Program
import BinaryLambda.Reporter
import BinaryLambda.Text.Lines
import BinaryLambda.Text.Utf8

set_option autoImplicit false

/-!
# Command line: running

The terms come from the arguments, from a file or from the standard input, one a
line.  Two semicolons begin a comment that ends with its line; a line that is
blank without its comment holds no term but is counted.  Every term is run for
itself, under a reporter that is not fatal and knows the line, so a line whose
term is at fault does not keep the next from running.  Only a term that is to be
reduced without a cap ends the program.
-/

namespace BinaryLambda.CommandLine

/-! ## Lines -/

/-- The part of a line before its comment. -/
def withoutComment : List Char → List Char
  | [] => []
  | ';' :: ';' :: _ => []
  | c :: cs => c :: withoutComment cs

/-- A line without its comment and the blanks around. -/
def preprocess (line : String) : String :=
  String.ofList (Text.strip (withoutComment line.toList))

/-- A line that holds a term. -/
structure TermLine where
  path : String
  number : Nat
  text : String
  deriving DecidableEq, Repr, Inhabited

/-- The lines that hold a term, the first line having the number `number`. -/
def termLinesFrom (path : String) (number : Nat) : List String → List TermLine
  | [] => []
  | line :: rest =>
    let text := preprocess line
    let lines := termLinesFrom path (number + 1) rest
    if text.isEmpty then lines else ⟨path, number, text⟩ :: lines

/-- The lines of a source that hold a term. -/
def termLines (path : String) (lines : List String) : List TermLine := termLinesFrom path 1 lines

/-! ## One line -/

/-- Why nothing is printed for a line. -/
inductive LineFault where
  /-- the term is at fault -/
  | program (e : Program.Fault)
  /-- the term is to be reduced, and there is no cap -/
  | noCap
  deriving DecidableEq, Repr, Inhabited

/-- What the fault amounts to. -/
def LineFault.failure : LineFault → Failure
  | program e => .diagnosed e.diagnostic
  | noCap => .other "TypeError" "'<' not supported between instances of 'list' and 'int'"

/-- Reads a line in the syntax that the options ask for. -/
def readTerm (o : Options) (line : String) : Except Program.Fault Term :=
  if o.surface then (Surface.ofText line).mapError .surface else Program.read line

/-- The registry with which free names are indexed. -/
def Options.registry (o : Options) : Option (List String) := if o.free then some [] else none

/-- What is printed for a term. -/
def render (o : Options) (t : Term) : Except Program.Fault String :=
  match o.mode with
  | some .normal => .ok t.text
  | some .bruijn => ((t.indexedWith o.registry).map IndexTerm.text).mapError .unbound
  | some .binary | none => ((t.indexedWith o.registry).map IndexTerm.bits).mapError .unbound

/-- Whether a term is reduced before it is printed. -/
def Options.reduces (o : Options) : Bool := o.mode == some .normal || o.reduce

/-- What a watcher sees while a line is run, and what is printed for it. -/
def runLine (o : Options) (line : String) : List Event × Except LineFault String :=
  match readTerm o line with
  | .error e => ([], .error (.program e))
  | .ok t =>
    if o.reduces then
      match o.cap with
      | none => ([], .error .noCap)
      | some cap =>
        let run := Reducer.run ⟨t, t, 0, cap⟩ Term.calculus true
        match run.result with
        | .error e => (run.events, .error (.program (.freshName e)))
        | .ok t => (run.events, (render o t).mapError .program)
    else ([], (render o t).mapError .program)

/-- Runs a line under a reporter; a failure that the reporter does not settle is
handed on. -/
def stepLine (o : Options) (r : Reporter) (line : TermLine) : Reporter × Option Failure :=
  let r := r.registerLine line.path (some line.text) (some line.number)
  let (events, outcome) := runLine o line.text
  let r := r.follow events
  match outcome with
  | .ok text => ((r.print text).removeLine line.path, none)
  | .error e =>
    match r.settle e.failure with
    | (r, none) => (r.removeLine line.path, none)
    | (r, some f) => (r, some f)

/-- Runs lines in order, up to a failure that is not settled. -/
def runLinesFrom (o : Options) (r : Reporter) : List TermLine → Reporter × Option Failure
  | [] => (r, none)
  | line :: lines =>
    match stepLine o r line with
    | (r, none) => runLinesFrom o r lines
    | (r, some f) => (r, some f)

/-- Runs lines under a reporter that has seen nothing. -/
def runLines (o : Options) (painted : Bool) (lines : List TermLine) : Reporter × Option Failure :=
  runLinesFrom o (.fresh false o.verbose painted) lines

/-! ## The whole program -/

/-- Where terms come from outside the arguments. -/
structure Sources where
  /-- the bytes of the file at a path, if it can be opened -/
  file : String → Option ByteArray
  /-- the text of the standard input -/
  input : String

/-- The path that stands for the arguments. -/
def argumentsPath : String := "<args>"

/-- The path that stands for the standard input. -/
def inputPath : String := "<stdin>"

/-- The file that the options ask for, unless the arguments hold terms. -/
def Options.wantedFile? (o : Options) : Option String :=
  if !o.terms.isEmpty then none
  else
    match o.file with
    | some path => if path.isEmpty then none else some path
    | none => none

/-- Says that a file cannot be opened. -/
def unopened (path : String) : Diagnostic :=
  .plain .general "'\x7b\x7d' could not be opened" [path]

/-- The lines that the options ask for. -/
def readLines (o : Options) (s : Sources) : Except Failure (List TermLine) :=
  match o.wantedFile? with
  | some path =>
    if path.contains '\x00' then .error (.other "ValueError" "embedded null byte")
    else
      match s.file path with
      | none => .error (.diagnosed (unopened path))
      | some bytes =>
        match Text.Utf8.decode bytes with
        | .error e => .error (.other "UnicodeDecodeError" e.message)
        | .ok text => .ok (termLines path (Text.lines text))
  | none =>
    if o.terms.isEmpty then .ok (termLines inputPath (Text.lines s.input))
    else .ok (termLines argumentsPath o.terms)

/-- How a run of the program ends. -/
inductive Ending where
  /-- the lines were run -/
  | finished (status : Nat)
  /-- the program asked to exit before the lines were run -/
  | exited (status : Nat)
  /-- a failure that nothing settled -/
  | failed (f : Failure)
  deriving Repr, Inhabited

/-- The exit status of an ending. -/
def Ending.status : Ending → Nat
  | finished status => status
  | exited status => status
  | failed _ => 1

/-- What a run of the program prints, and how it ends. -/
structure Outcome where
  stdout : String
  stderr : String
  ending : Ending
  deriving Repr, Inhabited

/-- Runs the program. -/
def run (painted : Bool) (arguments : List String) (s : Sources) : Outcome :=
  match Options.read arguments with
  | .error .help => ⟨helpText, "", .exited 0⟩
  | .error (.usage e) => ⟨"", usageError e, .exited 2⟩
  | .ok o =>
    match readLines o s with
    | .error f => ⟨((Reporter.fresh true false painted).settle f).1.output, "", .exited 1⟩
    | .ok lines =>
      match runLines o painted lines with
      | (r, none) => ⟨r.output, "", .finished (if r.failed then 1 else 0)⟩
      | (r, some f) => ⟨r.output, "", .failed f⟩

end BinaryLambda.CommandLine
