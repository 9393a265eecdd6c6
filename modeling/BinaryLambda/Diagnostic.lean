import BinaryLambda.Paint
import BinaryLambda.Text.Slice
import BinaryLambda.Text.Template

set_option autoImplicit false

/-!
# Diagnostics

A diagnostic is what a failure of this library says to its reader: a message,
made of a template and the snippets that fill it, and a marked span of the first
snippet, the subject, which is the text that was refused.  Positions count
characters.

The underlined form of a diagnostic has two lines: the subject, and below it one
caret followed by tildes under the marked span.  A span marks at least one
column, so a mistake at the end of the subject is marked one column past it.
-/

namespace BinaryLambda

/-- What a diagnostic is about. -/
inductive Topic where
  /-- no topic of its own -/
  | general
  /-- a character outside an alphabet -/
  | alphabet
  /-- a text that is no term; `position` is the index of the offending token -/
  | grammar (position : Int)
  /-- a variable that nothing binds -/
  | unbound
  /-- a text or bit string that is no index term, or an index term without code -/
  | encoding
  /-- the alphabet has no name left -/
  | freshName
  deriving DecidableEq, Repr, Inhabited

/-- What a failure says. -/
structure Diagnostic where
  topic : Topic
  template : String
  snippets : List String
  /-- the first marked character of the subject -/
  start : Int
  /-- the first character after the marked span -/
  stop : Int
  /-- whether a report underlines the subject -/
  underlined : Bool
  /-- whether the failure lies in this library and not in the text it was given -/
  internal : Bool
  deriving DecidableEq, Repr, Inhabited

namespace Diagnostic

/-- The text that was refused. -/
def subject (d : Diagnostic) : String := d.snippets.headD ""

/-- The message: the template filled with the snippets.  A template that does not
fill stands for itself. -/
def message (d : Diagnostic) : String :=
  match Text.Template.fill d.template d.snippets with
  | .ok s => s
  | .error _ => d.template

/-- The message with its snippets in bold. -/
def highlighted (painted : Bool) (d : Diagnostic) : String :=
  ({ d with snippets := d.snippets.map (Paint.bold painted) } : Diagnostic).message

/-- A diagnostic that marks the characters of the subject from `start` to `stop`. -/
def marking (topic : Topic) (template : String) (snippets : List String) (start stop : Nat) :
    Diagnostic :=
  { topic, template, snippets, start, stop, underlined := true, internal := false }

/-- A diagnostic that marks the subject from `start` to its end. -/
def markingFrom (topic : Topic) (template : String) (snippets : List String) (start : Nat) :
    Diagnostic :=
  marking topic template snippets start (snippets.headD "").length

/-- A diagnostic about the whole subject, which a report does not underline. -/
def plain (topic : Topic) (template : String) (snippets : List String) : Diagnostic :=
  { markingFrom topic template snippets 0 with underlined := false }

/-- A diagnostic about the token at `position`, which is also its index as a
character of the subject. -/
def atToken (template : String) (snippets : List String) (position : Nat) : Diagnostic :=
  marking (.grammar position) template snippets position (position + 1)

/-- Checks that a diagnostic has a message.  The stop `-1` stands for the end of
the subject. -/
def checked (d : Diagnostic) : Except Text.Template.Fault Diagnostic :=
  match Text.Template.fill d.template d.snippets with
  | .error e => .error e
  | .ok _ => .ok (if d.stop = -1 then { d with stop := d.subject.length } else d)

/-- The end of the span that is underlined: it holds at least one column. -/
def underlineStop (d : Diagnostic) : Int := max d.stop (d.start + 1)

/-- The two lines that show the marked span of the subject. -/
def underline (painted : Bool) (colour : Colour) (d : Diagnostic) : String :=
  let cs := d.subject.toList
  let stop := d.underlineStop
  let before := String.ofList (Text.upTo cs d.start)
  let marked := String.ofList (Text.between cs d.start stop)
  let after := String.ofList (Text.onwards cs stop)
  let margin := String.ofList (List.replicate d.start.toNat ' ')
  let marks := String.ofList ('^' :: List.replicate (stop - d.start - 1).toNat '~')
  "  " ++ before ++ Paint.boldIn painted colour marked ++ after ++ "\n" ++
    "  " ++ margin ++ Paint.boldIn painted colour marks

end Diagnostic

end BinaryLambda
