import BinaryLambda.Failure
import BinaryLambda.Term.Reduction

set_option autoImplicit false

/-!
# Reducers

A reducer takes steps from a term until it is normal or until the count of steps
reaches a cap.  Its tree and its cap may be replaced between runs; the count
goes on.  A run may be watched: then every step it takes is an event, and so is
an end that is not normal.  Watching never changes what a run does to a term.

The steps are those of a calculus, a type of trees with one way of stepping.
-/

namespace BinaryLambda

/-- A type of trees with a way of stepping and a text; each may fail. -/
structure Calculus (τ ε : Type) where
  hasRedex : τ → Except ε Bool
  step : τ → Except ε τ
  text : τ → Except ε String

/-- The calculus of terms. -/
def Term.calculus : Calculus Term Term.NoFreshName where
  hasRedex t := .ok t.hasRedex
  step := Term.step
  text t := .ok t.text

/-- What a watcher of a run sees. -/
inductive Event where
  /-- a step was taken to the term of this text -/
  | step (text : String)
  /-- the run from the term of this text ended at the cap and is not normal -/
  | unfinished (text : String) (cap : Int)
  deriving DecidableEq, Repr, Inhabited

/-- Tells that the cap was too low. -/
def Event.unfinishedDiagnostic (text : String) (cap : Int) : Diagnostic :=
  .markingFrom .general "'\x7b\x7d' has no beta-normal form within \x7b\x7d steps"
    [text, toString cap] 0

/-- A tree under reduction. -/
structure Reducer (τ : Type) where
  initial : τ
  tree : τ
  steps : Nat
  cap : Int
  deriving Repr, Inhabited

/-- A cap below zero. -/
structure NegativeCap where
  cap : Int
  deriving DecidableEq, Repr, Inhabited

/-- Names the cap. -/
def NegativeCap.failure (e : NegativeCap) : Failure :=
  .other "ValueError" s!"max_steps must be non-negative, got {e.cap}"

/-- A reducer after a run, what a watcher saw, and what stopped it, if anything
did. -/
structure Run (τ ε : Type) where
  reducer : Reducer τ
  events : List Event
  fault : Option ε
  deriving Inhabited

namespace Reducer

variable {τ ε : Type}

/-- The cap of a reduction for which none is given. -/
def defaultCap : Nat := 100

/-- A reducer that has taken no step. -/
def start (t : τ) (cap : Int) : Except NegativeCap (Reducer τ) :=
  if cap < 0 then .error ⟨cap⟩ else .ok ⟨t, t, 0, cap⟩

/-- Takes at most `remaining` steps. -/
def advance (c : Calculus τ ε) (watched : Bool) : Nat → Reducer τ → Run τ ε
  | 0, r => ⟨r, [], none⟩
  | remaining + 1, r =>
    match c.hasRedex r.tree with
    | .error e => ⟨r, [], some e⟩
    | .ok false => ⟨r, [], none⟩
    | .ok true =>
      match c.step r.tree with
      | .error e => ⟨r, [], some e⟩
      | .ok t =>
        let r' := { r with tree := t, steps := r.steps + 1 }
        if watched then
          match c.text t with
          | .error e => ⟨r', [], some e⟩
          | .ok s =>
            let run := advance c watched remaining r'
            { run with events := .step s :: run.events }
        else advance c watched remaining r'

/-- Runs until the tree is normal or the count of steps reaches the cap. -/
def run (r : Reducer τ) (c : Calculus τ ε) (watched : Bool) : Run τ ε :=
  let run := advance c watched (r.cap - r.steps).toNat r
  if !watched || run.fault.isSome then run
  else
    match c.hasRedex run.reducer.tree with
    | .error e => { run with fault := some e }
    | .ok false => run
    | .ok true =>
      match c.text r.initial with
      | .error e => { run with fault := some e }
      | .ok s => { run with events := run.events ++ [.unfinished s r.cap] }

/-- Whether the tree has no redex. -/
def isNormal (r : Reducer τ) (c : Calculus τ ε) : Except ε Bool := (c.hasRedex r.tree).map (!·)

/-- The literal form of a reducer. -/
def literal (r : Reducer τ) (c : Calculus τ ε) : Except ε String :=
  (c.text r.tree).map fun s => s!"NormalOrderReducer({Text.quoted s}, steps={r.steps})"

end Reducer

/-- The same run of trees and faults of other types. -/
def Run.map {τ τ' ε ε' : Type} (onTree : τ → τ') (onFault : ε → ε') (run : Run τ ε) :
    Run τ' ε' where
  reducer :=
    { initial := onTree run.reducer.initial
      tree := onTree run.reducer.tree
      steps := run.reducer.steps
      cap := run.reducer.cap }
  events := run.events
  fault := run.fault.map onFault

/-- The tree that a run left, unless something stopped it. -/
def Run.result {τ ε : Type} (run : Run τ ε) : Except ε τ :=
  match run.fault with
  | some e => .error e
  | none => .ok run.reducer.tree

/-- Reduces a term until it is normal or `cap` steps are taken. -/
def Term.interpret (t : Term) (cap : Nat) : Except Term.NoFreshName Term :=
  (Reducer.run ⟨t, t, 0, cap⟩ Term.calculus false).result

end BinaryLambda
