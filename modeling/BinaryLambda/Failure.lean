import BinaryLambda.Diagnostic
import BinaryLambda.Text.Quoted
import BinaryLambda.Value

set_option autoImplicit false

/-!
# Failures

Whatever ends a computation early: a diagnostic of this library, an interrupt
from the keyboard, a term too deep for the stack, a request to exit, or any other
failure, which is known by the name of its kind and a text.
-/

namespace BinaryLambda

/-- What ends a computation early. -/
inductive Failure where
  | diagnosed (d : Diagnostic)
  | interrupted (text : String)
  /-- it comes from outside: nothing here looks at the depth of a term -/
  | tooDeep (text : String)
  /-- a request to end the program with this code -/
  | exit (code : Value)
  /-- any other failure -/
  | other (kind text : String)
  deriving Repr, Inhabited

/-- A template that cannot be filled. -/
def Text.Template.Fault.failure (e : Text.Template.Fault) : Failure :=
  match e with
  | .noFilling _ => .other "IndexError" e.message
  | .named slot => .other "KeyError" (Text.quoted slot)
  | _ => .other "ValueError" e.message

end BinaryLambda
