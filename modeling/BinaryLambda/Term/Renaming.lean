import BinaryLambda.Term.Printer

set_option autoImplicit false

/-!
# Terms: renaming a binder

A binder is renamed to the first letter that works, in the cyclic order of the
alphabet that starts just after its own name.  A letter works when it is another
name, is not to be avoided, is not free in the body, and is bound by no binder
of the body above a free occurrence of the old name.  Inner binders may reuse it
elsewhere.
-/

namespace BinaryLambda.Term

/-- Where a name stands in a list of characters: the first place at which its
characters follow one another.  The empty name stands at the front. -/
def place? (name : List Char) : List Char → Option Nat
  | [] => if name.isEmpty then some 0 else none
  | c :: cs => if name.isPrefixOf (c :: cs) then some 0 else (place? name cs).map (· + 1)

/-- The letters in the order in which they are tried for a binder named `name`:
those after its place, then those before and at it. -/
def candidates (name : String) : List String :=
  let skipped := match place? name.toList alphabet with
    | some i => i + 1
    | none => 0
  (alphabet.drop skipped ++ alphabet.take skipped).map Char.toString

/-- The binder `name` of `body` may be renamed to `c`. -/
def canRename (name : String) (body : Term) (avoid : List String) (c : String) : Bool :=
  c != name && !avoid.contains c && !body.occursFree c && !body.bindsFree c name

/-- No letter is left for the binder `name` of `body`. -/
structure NoFreshName where
  name : String
  body : Term
  deriving DecidableEq, Repr, Inhabited

/-- Names the binder and the body. -/
def NoFreshName.diagnostic (e : NoFreshName) : Diagnostic :=
  .plain .freshName "no fresh variable left to rename '\x7b\x7d' in '\x7b\x7d'" [e.name, e.body.text]

/-- The first letter to which the binder `name` of `body` may be renamed. -/
def freshName (name : String) (body : Term) (avoid : List String) : Except NoFreshName String :=
  match (candidates name).find? (canRename name body avoid) with
  | some c => .ok c
  | none => .error ⟨name, body⟩

/-- Renames the free occurrences of `old` to `new`.  Nothing changes beneath a
binder of either name. -/
def rename (old new : String) : Term → Term
  | var x => var (if x = old then new else x)
  | lam p b => if p = old ∨ p = new then lam p b else lam p (b.rename old new)
  | app f a => app (f.rename old new) (a.rename old new)

/-- Renaming keeps the shape of a term. -/
@[simp] theorem size_rename (old new : String) (t : Term) : (t.rename old new).size = t.size := by
  induction t with
  | var x => rfl
  | lam p b ih => simp only [rename]; split <;> simp [size, ih]
  | app f a ihf iha => simp [rename, size, ihf, iha]

/-- The abstraction of `name` over `body`, with another binder. -/
def alphaConvert (name : String) (body : Term) (avoid : List String) : Except NoFreshName Term :=
  (freshName name body avoid).map fun c => lam c (body.rename name c)

end BinaryLambda.Term
