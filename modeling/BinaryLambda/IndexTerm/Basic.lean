import BinaryLambda.Diagnostic
import BinaryLambda.Term.Basic

set_option autoImplicit false

/-!
# Index terms

An index term has no names: an occurrence of a variable says how many binders
lie between it and its own.  An occurrence bound by the innermost binder has no
binder between, and it is written with the index 1.

A term is indexed against the names of the binders around it, innermost first.
A name that none of them has is free.  Strict indexing refuses it.  Indexing with
a registry numbers it as if the registry's names were binders around the whole,
the first registered being the innermost of those; a name that is not registered
is added at the end.
-/

namespace BinaryLambda

/-- A lambda term without names. -/
inductive IndexTerm where
  /-- an occurrence with `between` binders between it and its own -/
  | bound (between : Nat)
  | lam (body : IndexTerm)
  | app (function argument : IndexTerm)
  deriving DecidableEq, Repr, Inhabited

/-- A free name in a term that may have none. -/
structure Unbound where
  name : String
  deriving DecidableEq, Repr, Inhabited

/-- Names the free variable. -/
def Unbound.diagnostic (e : Unbound) : Diagnostic :=
  .plain .unbound "'\x7b\x7d' is free: it has no enclosing λ to be indexed against" [e.name]

namespace Term

/-- The index term of a term all of whose free names are in `context`. -/
def indexed (context : List String) : Term → Except Unbound IndexTerm
  | var x =>
    match context.idxOf? x with
    | some i => .ok (.bound i)
    | none => .error ⟨x⟩
  | lam p b => (b.indexed (p :: context)).map .lam
  | app f a =>
    match f.indexed context with
    | .error e => .error e
    | .ok f' => (a.indexed context).map (.app f')

/-- The place of a name in a registry, and the registry with the name in it. -/
def register (registry : List String) (x : String) : Nat × List String :=
  match registry.idxOf? x with
  | some i => (i, registry)
  | none => (registry.length, registry ++ [x])

/-- The index term of a term, free names being numbered by a registry, and the
registry afterwards. -/
def registered (context registry : List String) : Term → IndexTerm × List String
  | var x =>
    match context.idxOf? x with
    | some i => (.bound i, registry)
    | none =>
      let (i, registry) := register registry x
      (.bound (context.length + i), registry)
  | lam p b =>
    let (b', registry) := b.registered (p :: context) registry
    (.lam b', registry)
  | app f a =>
    let (f', registry) := f.registered context registry
    let (a', registry) := a.registered context registry
    (.app f' a', registry)

/-- The index term of a term outside every binder: strict without a registry. -/
def indexedWith (registry : Option (List String)) (t : Term) : Except Unbound IndexTerm :=
  match registry with
  | none => t.indexed []
  | some names => .ok (t.registered [] names).1

end Term

end BinaryLambda
