import BinaryLambda.Failure
import BinaryLambda.IndexTerm.Code
import BinaryLambda.IndexTerm.Notation
import BinaryLambda.Reducer
import BinaryLambda.Surface.Parser
import BinaryLambda.Term.Parser

set_option autoImplicit false

/-!
# Programs

A program is the text of a term.  It may be asked for the text of the term that
it reduces to, or for the written form or the binary code of its index term.
-/

namespace BinaryLambda.Program

/-- Why a program has no answer. -/
inductive Fault where
  | text (e : Term.TextFault)
  | surface (e : Surface.Fault)
  | freshName (e : Term.NoFreshName)
  | unbound (e : Unbound)
  deriving DecidableEq, Repr, Inhabited

/-- What the fault says. -/
def Fault.diagnostic : Fault → Diagnostic
  | text e => e.diagnostic
  | surface e => e.diagnostic
  | freshName e => e.diagnostic
  | unbound e => e.diagnostic

/-- Reads a program of the core language. -/
def read (program : String) : Except Fault Term := (Term.ofText program).mapError .text

/-- The text of a program's term, reduced until it is normal or `cap` steps are
taken. -/
def evaluate (program : String) (cap : Nat) : Except Fault String := do
  let t ← read program
  let t ← (t.interpret cap).mapError .freshName
  return t.text

/-- The index term of a program's term, free names being numbered by a registry if
there is one. -/
def indexed (program : String) (registry : Option (List String)) : Except Fault IndexTerm := do
  let t ← read program
  (t.indexedWith registry).mapError .unbound

/-- The written form of a program's index term. -/
def indexText (program : String) (registry : Option (List String)) : Except Fault String :=
  (indexed program registry).map IndexTerm.text

/-- The binary code of a program's index term. -/
def bits (program : String) (registry : Option (List String)) : Except Fault String :=
  (indexed program registry).map IndexTerm.bits

/-- Why a program cannot be evaluated within a cap. -/
inductive CappedFault where
  | program (e : Fault)
  | cap (e : NegativeCap)
  deriving DecidableEq, Repr, Inhabited

/-- What the fault amounts to. -/
def CappedFault.failure : CappedFault → Failure
  | program e => .diagnosed e.diagnostic
  | cap e => e.failure

/-- Evaluates a program within a cap that may be negative; the program is read
first. -/
def evaluateWithin (program : String) (cap : Int) : Except CappedFault String :=
  match read program with
  | .error e => .error (.program e)
  | .ok _ =>
    if cap < 0 then .error (.cap ⟨cap⟩)
    else (evaluate program cap.toNat).mapError .program

end BinaryLambda.Program
