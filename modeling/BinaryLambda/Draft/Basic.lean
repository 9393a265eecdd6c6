import BinaryLambda.Failure
import BinaryLambda.IndexTerm.Basic
import BinaryLambda.Term.Renaming

set_option autoImplicit false

/-!
# Drafts

A draft is a tree that a caller put together by hand: it may mix names and
indices, leave a binder without a name, or hold nothing where a term belongs.
Some drafts are terms and some are index terms.  An operation on a draft that is
no term fails at the first node that it cannot read, in the order in which it
looks at nodes; a node that it does not look at does no harm.
-/

namespace BinaryLambda

/-- A tree put together by hand. -/
inductive Draft where
  | var (name : String)
  | lam (binder : Option String) (body : Draft)
  | app (function argument : Draft)
  | index (value : Int)
  /-- nothing, where a term belongs -/
  | hole
  deriving DecidableEq, Repr, Inhabited

/-- Why an operation on a draft fails. -/
inductive Draft.Fault where
  /-- a node that belongs to no term -/
  | notNamed (node : Draft)
  /-- a node that has no place in a canonical text -/
  | notWritable (node : Draft)
  /-- a node that belongs to no index term -/
  | notIndexed (node : Draft)
  /-- an abstraction whose binder should have a name -/
  | nameless
  /-- a tree that should be an abstraction -/
  | noAbstraction (tree : Draft)
  /-- an index below 1 -/
  | indexBelowOne (value : Int)
  | freshName (e : Term.NoFreshName)
  | unbound (e : Unbound)
  deriving DecidableEq, Repr, Inhabited

namespace Draft

/-- The literal form of a draft. -/
def literal : Draft → String
  | var name => s!"Variable(name={Text.quoted name})"
  | lam none body => s!"Function(parameter=None, body={body.literal})"
  | lam (some p) body =>
    s!"Function(parameter=Variable(name={Text.quoted p}), body={body.literal})"
  | app f a => s!"Application(function={f.literal}, argument={a.literal})"
  | index n => s!"DeBruijnIndex(value={n})"
  | hole => "None"

/-- The name of the kind of a draft. -/
def kindName : Draft → String
  | var _ => "Variable"
  | lam _ _ => "Function"
  | app _ _ => "Application"
  | index _ => "DeBruijnIndex"
  | hole => "NoneType"

/-- What a fault amounts to. -/
def Fault.failure : Fault → Failure
  | notNamed d => .other "TypeError" s!"not a named λ-term: {d.literal}"
  | notWritable d =>
    .other "TypeError"
      s!"not a named λ-term: {d.literal} (use bruijn.render_bruijn for index terms)"
  | notIndexed d => .other "TypeError" s!"not a De Bruijn λ-term: {d.literal}"
  | nameless => .other "AttributeError" "'NoneType' object has no attribute 'name'"
  | noAbstraction d => .other "AttributeError" s!"'{d.kindName}' object has no attribute 'parameter'"
  | indexBelowOne n =>
    .diagnosed (.plain .encoding "De Bruijn index must be positive, got \x7b\x7d" [toString n])
  | freshName e => .diagnosed e.diagnostic
  | unbound e => .diagnosed e.diagnostic

/-! ## Terms among drafts -/

/-- A term as a draft. -/
def ofTerm : Term → Draft
  | .var x => var x
  | .lam p b => lam (some p) (ofTerm b)
  | .app f a => app (ofTerm f) (ofTerm a)

/-- The term that a draft is, if it is one. -/
def term? : Draft → Option Term
  | var x => some (.var x)
  | lam (some p) b => b.term?.map (.lam p)
  | app f a =>
    match f.term? with
    | none => none
    | some f' => a.term?.map (.app f')
  | _ => none

@[simp] theorem term?_ofTerm (t : Term) : (ofTerm t).term? = some t := by
  induction t with
  | var x => rfl
  | lam p b ih => simp [ofTerm, term?, ih]
  | app f a ihf iha => simp [ofTerm, term?, ihf, iha]

theorem eq_ofTerm_of_term? {d : Draft} {t : Term} (h : d.term? = some t) : d = ofTerm t := by
  fun_induction term? d generalizing t with
  | case1 x => cases h; rfl
  | case2 p b ih =>
    obtain ⟨u, hu, rfl⟩ := Option.map_eq_some_iff.1 h
    simp [ofTerm, ih hu]
  | case3 f a hf => cases h
  | case4 f a f' hf ihf iha =>
    obtain ⟨u, hu, rfl⟩ := Option.map_eq_some_iff.1 h
    simp [ofTerm, ihf hf, iha hu]
  | case5 => cases h

/-- An index term as a draft: its abstractions have no names. -/
def ofIndexTerm : IndexTerm → Draft
  | .bound n => index (n + 1)
  | .lam b => lam none (ofIndexTerm b)
  | .app f a => app (ofIndexTerm f) (ofIndexTerm a)

/-- The index term of a draft in which every variable is an index from 1 on;
names of binders are forgotten. -/
def indexTerm? : Draft → Option IndexTerm
  | index (.ofNat (n + 1)) => some (.bound n)
  | lam _ b => b.indexTerm?.map .lam
  | app f a =>
    match f.indexTerm? with
    | none => none
    | some f' => a.indexTerm?.map (.app f')
  | _ => none

@[simp] theorem indexTerm?_ofIndexTerm (t : IndexTerm) : (ofIndexTerm t).indexTerm? = some t := by
  induction t with
  | bound n => rfl
  | lam b ih => simp [ofIndexTerm, indexTerm?, ih]
  | app f a ihf iha => simp [ofIndexTerm, indexTerm?, ihf, iha]

end Draft

end BinaryLambda
