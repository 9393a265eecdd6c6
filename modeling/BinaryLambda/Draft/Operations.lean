import BinaryLambda.Draft.Walk
import BinaryLambda.IndexTerm.Code
import BinaryLambda.IndexTerm.Notation
import BinaryLambda.Reducer
import BinaryLambda.Term.Church

set_option autoImplicit false

/-!
# Drafts: the operations

An operation on drafts that are terms is the operation on terms; any other draft
is walked.
-/

namespace BinaryLambda.Draft

/-- The result of an operation on terms that may run out of names. -/
def ofFresh (r : Except Term.NoFreshName Term) : Except Fault Draft :=
  (r.map ofTerm).mapError .freshName

/-- The names of the free occurrences of variables, from left to right. -/
def freeNames (d : Draft) : Except Fault (List String) :=
  match d.term? with
  | some t => .ok t.freeNames
  | none => Walk.freeNames d

/-- Whether a name has a free occurrence. -/
def occursFree (x : String) (d : Draft) : Except Fault Bool :=
  match d.term? with
  | some t => .ok (t.occursFree x)
  | none => Walk.occursFree (some x) d

/-- Whether a binder of one name has a free occurrence of another beneath it. -/
def bindsFree (binder x : String) (d : Draft) : Except Fault Bool :=
  match d.term? with
  | some t => .ok (t.bindsFree binder x)
  | none => Walk.bindsFree binder x d

/-- The tokens of a draft. -/
def tokens (d : Draft) : Except Fault (List Token) :=
  match d.term? with
  | some t => .ok t.tokens
  | none => Walk.tokensOnto d []

/-- The canonical text of a draft. -/
def text (d : Draft) : Except Fault String :=
  match d.term? with
  | some t => .ok t.text
  | none => Walk.text d

/-- Whether a draft contains a redex. -/
def hasRedex (d : Draft) : Except Fault Bool :=
  match d.term? with
  | some t => .ok t.hasRedex
  | none => Walk.hasRedex d

/-- Renames the free occurrences of a name. -/
def rename (old new : String) (d : Draft) : Except Fault Draft :=
  match d.term? with
  | some t => .ok (ofTerm (t.rename old new))
  | none => Walk.rename old new d

/-- The first letter to which a binder of a body may be renamed. -/
def freshName (name : String) (body : Draft) (avoid : List String) : Except Fault String :=
  match body.term? with
  | some b => (Term.freshName name b avoid).mapError .freshName
  | none => Walk.freshName name body avoid

/-- An abstraction with another binder. -/
def alphaConvert (d : Draft) (avoid : List String) : Except Fault Draft :=
  match d.term?, d with
  | some (.lam p b), _ => ofFresh (Term.alphaConvert p b avoid)
  | _, lam p b => (Walk.alphaConvert p b avoid).map fun r => lam (some r.1) r.2.1
  | _, d => .error (.noAbstraction d)

/-- Replaces the free occurrences of a name by a value. -/
def substitute (value : Draft) (x : String) (body : Draft) : Except Fault Draft :=
  match value.term?, body.term? with
  | some v, some b => ofFresh (Term.substitute v x b)
  | _, _ => Walk.substitute value (some x) body

/-- Contracts the redex of an abstraction and an argument. -/
def contract (function argument : Draft) : Except Fault Draft :=
  match function.term?, argument.term? with
  | some (.lam p b), some a => ofFresh (Term.contract p b a)
  | _, _ => Walk.contract function argument

/-- One step of reduction. -/
def step (d : Draft) : Except Fault Draft :=
  match d.term? with
  | some t => ofFresh t.step
  | none => Walk.step d

/-- The calculus of drafts. -/
def calculus : Calculus Draft Fault where
  hasRedex := hasRedex
  step := step
  text := text

/-- Whether a draft has a redex, and its text, before and after each of a number
of steps. -/
def trace (d : Draft) : Nat → Except Fault (List (Bool × String))
  | 0 => do
    let redex ← d.hasRedex
    return [(redex, ← d.text)]
  | n + 1 => do
    let redex ← d.hasRedex
    let text ← d.text
    let next ← d.step
    return (redex, text) :: (← trace next n)

/-- A run of a reducer that starts with a draft. -/
def run (watched : Bool) (d : Draft) (cap : Int) : Except NegativeCap (Run Draft Fault) :=
  match d.term? with
  | some t => (Reducer.start t cap).map fun r => (r.run Term.calculus watched).map ofTerm .freshName
  | none => (Reducer.start d cap).map (·.run calculus watched)

/-! ## Indices -/

/-- The index form of a draft, and the registry of free names afterwards. -/
def indexed (context : List String) (registry : Option (List String)) (d : Draft) :
    Option (List String) × Except Fault Draft :=
  match d.term?, registry with
  | some t, none => (none, ((t.indexed context).map ofIndexTerm).mapError .unbound)
  | some t, some names =>
    let (i, names) := t.registered context names
    (some names, .ok (ofIndexTerm i))
  | none, registry => Walk.indexed context registry d

/-- The binary code of a draft in which every variable is an index. -/
def bits (d : Draft) : Except Fault String :=
  match d.indexTerm? with
  | some t => .ok t.bits
  | none => Walk.bits d

/-- The written form of a draft in which every variable is an index. -/
def indexText (d : Draft) : Except Fault String :=
  match d.indexTerm? with
  | some t => .ok t.text
  | none => Walk.indexText d

/-- The number of which a draft is the Church numeral. -/
def churchValue? (d : Draft) : Option Nat :=
  match d.term? with
  | some t => t.churchValue?
  | none => Walk.churchValue? d

end BinaryLambda.Draft
