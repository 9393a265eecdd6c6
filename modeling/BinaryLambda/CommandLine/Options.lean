import BinaryLambda.Decimal.Integer
import BinaryLambda.Reducer
import BinaryLambda.Text.Quoted

set_option autoImplicit false

/-!
# Command line: options

Arguments are options, values of options, or terms.  A long option may be cut
short as long as it stays unambiguous, and may carry its value after an equals
sign.  Short options without values may be bundled, and the last of a bundle may
be followed at once by its value; an equals sign after the first letter of a
bundle is passed over, any other belongs to what it stands in.  After `--`
everything is a term.  A negative number is a term, and so is anything with a
space that is no option.

A value that reads `--` is dropped, and its option is left without a value:
without a file the standard input is read, without a mode terms are printed as
in binary mode, and without a cap no term can be reduced.

Terms are taken from one run of arguments only: those after a later option are
not recognized.  What every argument is, is settled before any option is
applied; then the options are applied in order, and the first that cannot be
applied ends the reading.
-/

namespace BinaryLambda.CommandLine

/-- What is printed for a term. -/
inductive Mode where
  | normal
  | bruijn
  | binary
  deriving DecidableEq, Repr, Inhabited

namespace Mode

/-- The modes in the order in which they are offered. -/
def all : List Mode := [normal, bruijn, binary]

/-- The name of a mode. -/
def name : Mode → String
  | normal => "normal"
  | bruijn => "bruijn"
  | binary => "binary"

end Mode

/-- What a command line asks for. -/
structure Options where
  terms : List String
  file : Option String
  mode : Option Mode
  surface : Bool
  reduce : Bool
  free : Bool
  cap : Option Nat
  verbose : Bool
  deriving DecidableEq, Repr, Inhabited

/-- The options of an empty command line. -/
def Options.initial : Options :=
  { terms := []
    file := none
    mode := some .normal
    surface := false
    reduce := false
    free := false
    cap := some Reducer.defaultCap
    verbose := false }

/-- The options by what they set. -/
inductive Key where
  | help
  | file
  | mode
  | surface
  | reduce
  | free
  | cap
  | verbose
  deriving DecidableEq, Repr, Inhabited

namespace Key

/-- The options in the order in which they are described. -/
def all : List Key := [help, file, mode, surface, reduce, free, cap, verbose]

/-- The spellings of an option. -/
def names : Key → List String
  | help => ["-h", "--help"]
  | file => ["-f", "--file"]
  | mode => ["-m", "--mode"]
  | surface => ["-s", "--surface"]
  | reduce => ["-r", "--reduce"]
  | free => ["--free"]
  | cap => ["--max-steps"]
  | verbose => ["-v", "--verbose"]

/-- Whether an option takes a value. -/
def takesValue : Key → Bool
  | file => true
  | mode => true
  | cap => true
  | _ => false

/-- Every spelling with its option. -/
def spellings : List (String × Key) := all.flatMap fun k => k.names.map (·, k)

/-- The option of an exact spelling. -/
def ofName? (s : String) : Option Key := (spellings.find? (·.1 == s)).map (·.2)

end Key

/-- What is wrong with a command line. -/
inductive UsageFault where
  /-- an abbreviation of several options -/
  | ambiguous (argument : String) (spellings : List String)
  /-- an option without its value -/
  | missingValue (k : Key)
  /-- a value for an option that takes none -/
  | ignoredValue (k : Key) (value : String)
  /-- a value that names no mode -/
  | unknownMode (value : String)
  /-- a value that is no step count -/
  | noStepCount (shown : String)
  /-- arguments that are neither options nor terms -/
  | unrecognized (arguments : List String)
  deriving DecidableEq, Repr, Inhabited

/-- The wording of a step count that is none. -/
def stepCountMessage (shown : String) : String :=
  s!"expected a non-negative integer, got '{shown}'"

/-- A fault with the option it concerns. -/
def Key.complaint (k : Key) (what : String) : String :=
  "argument " ++ "/".intercalate k.names ++ ": " ++ what

/-- The wording of a fault. -/
def UsageFault.message : UsageFault → String
  | ambiguous argument spellings =>
    s!"ambiguous option: {argument} could match " ++ ", ".intercalate spellings
  | missingValue k => k.complaint "expected one argument"
  | ignoredValue k value => k.complaint ("ignored explicit argument " ++ Text.quoted value)
  | unknownMode value =>
    Key.mode.complaint
      ("invalid choice: " ++ Text.quoted value ++ " (choose from " ++
        ", ".intercalate (Mode.all.map fun m => Text.quoted m.name) ++ ")")
  | noStepCount shown => Key.cap.complaint (stepCountMessage shown)
  | unrecognized arguments => "unrecognized arguments: " ++ " ".intercalate arguments

/-! ## What an argument is -/

/-- An option as an argument spells it, and what is attached to it, if anything
is. -/
structure Spelling where
  key : Key
  name : String
  attached : Option String
  deriving DecidableEq, Repr, Inhabited

/-- What an argument is. -/
inductive Argument where
  | term (text : String)
  /-- the first `--` -/
  | separator
  | option (spelling : Spelling)
  /-- looks like an option and is none -/
  | unknown (text : String)
  deriving DecidableEq, Repr, Inhabited

/-- A negative number: a minus and digits, perhaps with a point and digits after
it; a line feed may follow. -/
def isNegativeNumber (s : String) : Bool :=
  match s.toList with
  | '-' :: cs =>
    let cs := if cs.getLast? = some '\n' then cs.dropLast else cs
    let whole := cs.takeWhile Text.isDigit
    match cs.dropWhile Text.isDigit with
    | [] => !whole.isEmpty
    | '.' :: fraction => !fraction.isEmpty && fraction.all Text.isDigit
    | _ => false
  | _ => false

/-- A spelling before its equals sign and what follows the sign. -/
def splitEquals (s : String) : String × Option String :=
  let cs := s.toList
  match cs.dropWhile (· != '=') with
  | [] => (s, none)
  | _ :: value => (String.ofList (cs.takeWhile (· != '=')), some (String.ofList value))

/-- The options that an argument may abbreviate, or that it bundles. -/
def abbreviated (s : String) : List Spelling :=
  match s.toList with
  | '-' :: '-' :: _ =>
    let (start, value) := splitEquals s
    (Key.spellings.filter fun e => start.toList.isPrefixOf e.1.toList).map fun e =>
      ⟨e.2, e.1, value⟩
  | '-' :: c :: rest =>
    let name := String.ofList ['-', c]
    match Key.ofName? name with
    | some k => [⟨k, name, some (String.ofList rest)⟩]
    | none => []
  | _ => []

/-- What an argument before the separator is. -/
def classify (s : String) : Except UsageFault Argument :=
  if !s.startsWith "-" then .ok (.term s)
  else
    match Key.ofName? s with
    | some k => .ok (.option ⟨k, s, none⟩)
    | none =>
      if s = "-" then .ok (.term s)
      else
        let (name, value) := splitEquals s
        match if value.isSome then Key.ofName? name else none with
        | some k => .ok (.option ⟨k, name, value⟩)
        | none =>
          match abbreviated s with
          | [spelling] => .ok (.option spelling)
          | [] =>
            if isNegativeNumber s || s.contains ' ' then .ok (.term s) else .ok (.unknown s)
          | several => .error (.ambiguous s (several.map (·.name)))

/-- What the arguments are. -/
def classifyAll : List String → Except UsageFault (List Argument)
  | [] => .ok []
  | s :: rest =>
    if s = "--" then .ok (.separator :: rest.map .term)
    else
      match classify s with
      | .error e => .error e
      | .ok a => (classifyAll rest).map (a :: ·)

/-! ## Applying options -/

/-- Why the options come to no end of their own. -/
inductive Stop where
  | help
  | usage (e : UsageFault)
  deriving DecidableEq, Repr, Inhabited

/-- The step count that a text writes.  A count below zero is shown as a number, a
text that writes none as it is. -/
def stepCount (s : String) : Except String Nat :=
  match Decimal.readInteger? s with
  | some (.ofNat n) => .ok n
  | some i => .error (toString i)
  | none => .error s

/-- Applies one option to a value that is not dropped; those that take none are
given an empty one. -/
def applyValue (o : Options) (k : Key) (value : String) : Except Stop Options :=
  match k with
  | .help => .error .help
  | .file => .ok { o with file := some value }
  | .mode =>
    match Mode.all.find? (·.name == value) with
    | some m => .ok { o with mode := some m }
    | none => .error (.usage (.unknownMode value))
  | .surface => .ok { o with surface := true }
  | .reduce => .ok { o with reduce := true }
  | .free => .ok { o with free := true }
  | .cap =>
    match stepCount value with
    | .ok n => .ok { o with cap := some n }
    | .error shown => .error (.usage (.noStepCount shown))
  | .verbose => .ok { o with verbose := true }

/-- Leaves an option without its value. -/
def withoutValue (o : Options) : Key → Options
  | .file => { o with file := none }
  | .mode => { o with mode := none }
  | .cap => { o with cap := none }
  | _ => o

/-- Applies one option. -/
def apply (o : Options) (k : Key) (value : String) : Except Stop Options :=
  if value = "--" then .ok (withoutValue o k) else applyValue o k value

/-- Applies options in order. -/
def applyAll : Options → List (Key × String) → Except Stop Options
  | o, [] => .ok o
  | o, (k, value) :: rest =>
    match apply o k value with
    | .error e => .error e
    | .ok o => applyAll o rest

/-- What one argument amounts to: options to apply, and whether the next argument
was taken as a value. -/
structure Taken where
  options : List (Key × String)
  usesNext : Bool
  deriving DecidableEq, Repr, Inhabited

/-- Puts an option in front of what was taken. -/
def Taken.after (t : Taken) (k : Key) : Taken := { t with options := (k, "") :: t.options }

/-- An option to which nothing is attached; `next` is the term after it. -/
def takeBare (k : Key) (next : Option String) : Except UsageFault Taken :=
  if k.takesValue then
    match next with
    | some value => .ok ⟨[(k, value)], true⟩
    | none => .error (.missingValue k)
  else .ok ⟨[(k, "")], false⟩

/-- A short option `k` and the characters after it in its bundle: its value, or
more short options.  Characters that are neither are a value that `k` does not
take. -/
def takeBundle (k : Key) (next : Option String) : List Char → Except UsageFault Taken
  | [] => takeBare k next
  | c :: rest =>
    if k.takesValue then .ok ⟨[(k, String.ofList (c :: rest))], false⟩
    else
      match Key.ofName? (String.ofList ['-', c]) with
      | none => .error (.ignoredValue k (String.ofList (c :: rest)))
      | some k' => (takeBundle k' next rest).map (·.after k)

/-- Takes the option that an argument spells; `next` is the term after it. -/
def take (s : Spelling) (next : Option String) : Except UsageFault Taken :=
  match s.attached with
  | none => takeBare s.key next
  | some value =>
    if s.key.takesValue then .ok ⟨[(s.key, value)], false⟩
    else if value.isEmpty || s.name.startsWith "--" then .error (.ignoredValue s.key value)
    else takeBundle s.key next value.toList

/-- The text of an argument that is a term or the separator. -/
def Argument.plainText? : Argument → Option String
  | term s => some s
  | separator => some "--"
  | _ => none

/-- The terms of a run of arguments: its first separator is dropped. -/
def termsOfRun (run : List String) : List String := run.erase "--"

/-- Reads arguments; `taken` tells whether a run of terms was seen, and
`unrecognized` holds the arguments that are neither, in reverse. -/
def readArguments (o : Options) (taken : Bool) (unrecognized : List String) (as : List Argument) :
    Except Stop (Options × List String) :=
  match as with
  | [] => .ok (o, unrecognized.reverse)
  | .unknown s :: rest => readArguments o taken (s :: unrecognized) rest
  | .option s :: rest =>
    let next := match rest with
      | .term value :: _ => some value
      | _ => none
    match take s next with
    | .error e => .error (.usage e)
    | .ok t =>
      match applyAll o t.options with
      | .error e => .error e
      | .ok o =>
        readArguments o taken unrecognized (rest.drop (if t.usesNext then 1 else 0))
  | a :: rest =>
    let run := (a :: rest.takeWhile (·.plainText?.isSome)).filterMap (·.plainText?)
    let rest' := rest.dropWhile (·.plainText?.isSome)
    have := (List.dropWhile_sublist (fun a : Argument => a.plainText?.isSome) (l := rest)).length_le
    if taken then readArguments o taken (run.reverse ++ unrecognized) rest'
    else readArguments { o with terms := termsOfRun run } true unrecognized rest'
termination_by as.length
decreasing_by
  all_goals simp only [List.length_cons, List.length_drop]
  all_goals omega

/-- The options of a command line. -/
def Options.read (arguments : List String) : Except Stop Options :=
  match classifyAll arguments with
  | .error e => .error (.usage e)
  | .ok as =>
    match readArguments .initial false [] as with
    | .error e => .error e
    | .ok (o, []) => .ok o
    | .ok (_, unrecognized) => .error (.usage (.unrecognized unrecognized))

end BinaryLambda.CommandLine
