import BinaryLambda.Failure
import BinaryLambda.Reducer

set_option autoImplicit false

/-!
# Reporters

A reporter prints failures and warnings with the place they come from.  It knows
the lines that are being worked on by their paths: the place is that of the path
which was registered first among those that still have a line.  Reporting a
failure forgets all lines; a fatal reporter asks to exit instead.

Work is done inside blocks.  A failure that reaches the end of a block is
reported there, once.  A diagnostic, an interrupt and a term too deep for the
stack are then settled, and the work after the block goes on; any other failure
is reported as internal and escapes the block.  A request to exit passes every
block unreported.
-/

namespace BinaryLambda

/-- The line that is being worked on at a path, if there is one. -/
structure Entry where
  path : String
  line : Option String
  number : Option Int
  deriving DecidableEq, Repr, Inhabited

/-- A reporter and what it has printed. -/
structure Reporter where
  fatal : Bool
  verbose : Bool
  painted : Bool
  /-- the paths in the order in which they first appeared -/
  table : List Entry
  /-- the steps that were registered: the rule and the text of the term -/
  steps : Array (String × String)
  /-- whether a failure was reported -/
  failed : Bool
  printed : Array String
  deriving Repr, Inhabited

namespace Reporter

/-- A reporter that has seen nothing. -/
def fresh (fatal verbose painted : Bool) : Reporter :=
  { fatal, verbose, painted, table := [], steps := #[], failed := false, printed := #[] }

/-- Prints a line. -/
def print (r : Reporter) (line : String) : Reporter :=
  { r with printed := r.printed.push line }

/-- Everything printed, one line after the other. -/
def output (r : Reporter) : String :=
  r.printed.foldl (fun s line => s ++ line ++ "\n") ""

/-- Puts an entry in the place of the entry of its path, or at the end. -/
def place (entry : Entry) : List Entry → List Entry
  | [] => [entry]
  | e :: es => if e.path = entry.path then entry :: es else e :: place entry es

/-- Registers the line that is being worked on at a path. -/
def registerLine (r : Reporter) (path : String) (line : Option String) (number : Option Int) :
    Reporter :=
  { r with table := place ⟨path, line, number⟩ r.table }

/-- Forgets the line of a path. -/
def removeLine (r : Reporter) (path : String) : Reporter :=
  r.registerLine path none none

/-- The place that a report names. -/
def location (r : Reporter) : String :=
  match r.table.find? (·.line.isSome) with
  | none => ""
  | some e =>
    let number := match e.number with
      | some n => Value.int n
      | none => .null
    s!"{e.path}:{number.plain}: "

/-- Registers a step; a verbose reporter prints it. -/
def registerStep (r : Reporter) (rule text : String) : Reporter :=
  let r := { r with steps := r.steps.push (rule, text) }
  if r.verbose then r.print (Paint.boldIn r.painted .cyan rule ++ "  " ++ text) else r

/-- Prints a warning. -/
def warn (r : Reporter) (d : Diagnostic) : Reporter :=
  r.print
    (Paint.bold r.painted r.location ++ Paint.boldIn r.painted .magenta "warning: " ++
      d.highlighted r.painted)

/-- Whether a report underlines the subject of a diagnostic. -/
def underlines (d : Diagnostic) : Bool := !d.internal && !d.subject.isEmpty && d.underlined

/-- Prints a failure. -/
def printFailure (r : Reporter) (d : Diagnostic) : Reporter :=
  let mark := if d.internal then Paint.boldIn r.painted .red "[internal] " else ""
  let r := { r with failed := true }
  let r := r.print
    (mark ++ Paint.boldIn r.painted .red (r.location ++ "error: ") ++ d.highlighted r.painted)
  if underlines d then r.print (d.underline r.painted .red) else r

/-- Forgets every line. -/
def forgetLines (r : Reporter) : Reporter :=
  { r with table := r.table.map fun e => ⟨e.path, none, none⟩ }

/-- Reports a failure, and asks to exit if the reporter is fatal. -/
def report (r : Reporter) (d : Diagnostic) : Reporter × Option Failure :=
  let r := r.printFailure d
  if r.fatal then (r, some (.exit (.int 1))) else (r.forgetLines, none)

/-- What a report says of a failure that has no diagnostic. -/
def internalDiagnostic (kind text : String) : Diagnostic :=
  { Diagnostic.markingFrom .general "unknown error: '\x7b\x7d: \x7b\x7d'" [kind, text] 0 with
    internal := true }

/-- What a report says of a failure, if it is reported, and whether that settles
it. -/
def statement? : Failure → Option (Diagnostic × Bool)
  | .diagnosed d => some (d, true)
  | .interrupted _ => some (.markingFrom .general "keyboard interrupt" [""] 0, true)
  | .tooDeep _ =>
    some (.markingFrom .general
      "term is nested too deeply: maximum recursion depth exceeded" [""] 0, true)
  | .exit _ => none
  | .other kind text => some (internalDiagnostic kind text, false)

/-- Ends a block that a failure has reached: what escapes it, if anything does. -/
def settle (r : Reporter) (f : Failure) : Reporter × Option Failure :=
  match statement? f with
  | none => (r, some f)
  | some (d, settled) =>
    match r.report d with
    | (r, some exit) => (r, some exit)
    | (r, none) => (r, if settled then none else some f)

/-- Takes note of what a watcher of a run saw. -/
def notice (r : Reporter) : Event → Reporter
  | .step text => r.registerStep "β" text
  | .unfinished text cap => r.warn (Event.unfinishedDiagnostic text cap)

/-- Takes note of a sequence of events. -/
def follow (r : Reporter) (events : List Event) : Reporter := events.foldl notice r

end Reporter

/-! ## Work under a reporter -/

/-- What can be done under a reporter.  Work whose outcome does not depend on the
reporter stands for itself. -/
inductive Action (α : Type) where
  | registerLine (path : String) (line : Option String) (number : Option Int)
  | removeLine (path : String)
  | registerStep (rule text : String)
  | warn (d : Diagnostic)
  | report (d : Diagnostic)
  | locate
  | fail (f : Failure)
  | answer (a : α)
  /-- a watched run and its outcome -/
  | watch (events : List Event) (outcome : Except Failure α)
  /-- a block -/
  | block (body : List (Action α))
  deriving Inhabited

/-- What an action comes to. -/
inductive Reply (α : Type) where
  | done
  | location (text : String)
  | answer (a : α)
  /-- the replies to the actions of a block -/
  | block (replies : List (Reply α))
  /-- a block settled a failure -/
  | settled
  deriving Inhabited

namespace Action

variable {α : Type}

mutual

/-- Performs an action. -/
def perform (r : Reporter) : Action α → Reporter × Except Failure (Reply α)
  | registerLine path line number => (r.registerLine path line number, .ok .done)
  | removeLine path => (r.removeLine path, .ok .done)
  | registerStep rule text => (r.registerStep rule text, .ok .done)
  | warn d => (r.warn d, .ok .done)
  | report d =>
    match r.report d with
    | (r, some f) => (r, .error f)
    | (r, none) => (r, .ok .done)
  | locate => (r, .ok (.location r.location))
  | fail f => (r, .error f)
  | answer a => (r, .ok (.answer a))
  | watch events outcome => (r.follow events, outcome.map .answer)
  | block body =>
    match performAll r body with
    | (r, .ok replies) => (r, .ok (.block replies))
    | (r, .error f) =>
      match r.settle f with
      | (r, some f) => (r, .error f)
      | (r, none) => (r, .ok .settled)

/-- Performs actions in order, up to the first that fails. -/
def performAll (r : Reporter) : List (Action α) → Reporter × Except Failure (List (Reply α))
  | [] => (r, .ok [])
  | a :: as =>
    match perform r a with
    | (r, .error f) => (r, .error f)
    | (r, .ok reply) =>
      match performAll r as with
      | (r, .error f) => (r, .error f)
      | (r, .ok replies) => (r, .ok (reply :: replies))

end

end Action

end BinaryLambda
