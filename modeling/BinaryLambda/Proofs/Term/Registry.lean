import BinaryLambda.Proofs.Term.Environment
import Mathlib.Data.List.Forall2
import Mathlib.Logic.Function.Iterate

set_option autoImplicit false

/-!
# Terms: a registry of free names

Indexing with a registry adds the names that are free in the term and not in its context,
each at its first occurrence (`registered_snd`, `enroll_eq`).  Names are only ever added at
the end, so the indices that were given out stay right: in every longer registry, the
result is the strict index term for which the registry's names are binders around the
context (`indexed_of_registered`).  The same holds of terms that share a registry, whatever
their contexts (`registeredAll_spec`).
-/

namespace BinaryLambda.Term

open Environment

/-! ## Registering names -/

/-- The registry after names have been looked up in it one after the other. -/
def enroll (registry names : List String) : List String :=
  names.foldl (fun registry x => (register registry x).2) registry

theorem register_of_mem {x : String} {registry : List String} (h : x ∈ registry) :
    register registry x = (registry.idxOf x, registry) := by
  rw [register, idxOf?_eq_some_idxOf h]

theorem register_of_notMem {x : String} {registry : List String} (h : x ∉ registry) :
    register registry x = (registry.length, registry ++ [x]) := by
  rw [register, List.idxOf?_eq_none_iff.mpr h]

theorem enroll_append (registry names names' : List String) :
    enroll registry (names ++ names') = enroll (enroll registry names) names' :=
  List.foldl_append

/-- The names that are not in the registry come to its end in the order of their first
occurrence, each once. -/
theorem enroll_eq (registry names : List String) :
    enroll registry names = registry ++ (names.filter (· ∉ registry)).eraseDups := by
  induction names generalizing registry with
  | nil => exact (List.append_nil registry).symm
  | cons x names ih =>
      change enroll (register registry x).2 names = _
      by_cases hx : x ∈ registry
      · rw [register_of_mem hx, ih, List.filter_cons_of_neg (by simpa using hx)]
      · have hrest : names.filter (· ∉ registry ++ [x]) =
            (names.filter (· ∉ registry)).filter (fun y => !y == x) := by
          rw [List.filter_filter]
          apply List.filter_congr
          intro y _
          grind
        rw [register_of_notMem hx, ih, List.filter_cons_of_pos (by simpa using hx),
          List.eraseDups_cons, hrest, List.append_assoc, List.singleton_append]

theorem prefix_enroll (registry names : List String) : registry <+: enroll registry names := by
  rw [enroll_eq]
  exact List.prefix_append _ _

theorem mem_enroll {x : String} {registry names : List String} (h : x ∈ names) :
    x ∈ enroll registry names := by
  rw [enroll_eq, List.mem_append, List.mem_eraseDups, List.mem_filter]
  by_cases hx : x ∈ registry
  · exact .inl hx
  · exact .inr ⟨h, decide_eq_true hx⟩

/-! ## One term -/

/-- The names that a term needs in a registry. -/
def unbound (context : List String) (t : Term) : List String := t.freeNames.filter (· ∉ context)

theorem unbound_lam (context : List String) (p : String) (b : Term) :
    (lam p b).unbound context = b.unbound (p :: context) := by
  rw [unbound, unbound, freeNames, List.filter_filter]
  apply List.filter_congr
  intro y _
  grind

theorem unbound_app (context : List String) (f a : Term) :
    (app f a).unbound context = f.unbound context ++ a.unbound context :=
  List.filter_append _ _

/-- Indexing a term registers the names that are free in it and not in the context. -/
theorem registered_snd (t : Term) (context registry : List String) :
    (t.registered context registry).2 = enroll registry (t.unbound context) := by
  induction t generalizing context registry with
  | var x =>
      by_cases hx : x ∈ context
      · have hnone : (var x).unbound context = [] :=
          List.filter_cons_of_neg (by simpa using hx)
        rw [registered, idxOf?_eq_some_idxOf hx, hnone]
        rfl
      · have hone : (var x).unbound context = [x] :=
          List.filter_cons_of_pos (by simpa using hx)
        rw [registered, List.idxOf?_eq_none_iff.mpr hx, hone]
        rfl
  | lam p b ih =>
      rw [unbound_lam, ← ih]
      rfl
  | app f a ihf iha =>
      rw [unbound_app, enroll_append, ← ihf, ← iha]
      rfl

/-- In every registry that begins with the one that a term leaves, its indices mean the
same names. -/
theorem registered_fst {t : Term} {context registry final : List String}
    (h : (t.registered context registry).2 <+: final) :
    (t.registered context registry).1 = t.translate (ofContext (context ++ final)) := by
  induction t generalizing context registry with
  | var x =>
      rw [translate_var, ofContext]
      by_cases hc : x ∈ context
      · rw [registered, idxOf?_eq_some_idxOf hc, List.idxOf_append_of_mem hc]
      · rw [registered, List.idxOf?_eq_none_iff.mpr hc] at h ⊢
        dsimp only at h ⊢
        rw [List.idxOf_append_of_notMem hc]
        obtain ⟨rest, rfl⟩ := h
        by_cases hr : x ∈ registry
        · rw [register_of_mem hr, List.idxOf_append_of_mem hr]
        · rw [register_of_notMem hr]
          have hlast : (registry ++ [x]).idxOf x = registry.length := by
            rw [List.idxOf_append_of_notMem hr, List.idxOf_cons_self, Nat.add_zero]
          rw [List.idxOf_append_of_mem (List.mem_append_right _ (List.mem_singleton_self x)),
            hlast]
  | lam p b ih =>
      rw [translate_lam, push_ofContext, ← List.cons_append, ← ih h]
      rfl
  | app f a ihf iha =>
      have ha : (a.registered context (f.registered context registry).2).2 <+: final := h
      have hf : (f.registered context registry).2 <+: final := by
        rw [registered_snd a] at ha
        exact (prefix_enroll _ _).trans ha
      rw [translate_app, ← ihf hf, ← iha ha]
      rfl

/-- In every registry that begins with the one that a term leaves, indexing gives the strict
index term for which the registry's names are further binders around the context. -/
theorem indexed_of_registered {t : Term} {context registry final : List String}
    (h : (t.registered context registry).2 <+: final) :
    t.indexed (context ++ final) = .ok (t.registered context registry).1 := by
  have hfree : t.freeNames ⊆ context ++ final := by
    intro y hy
    rw [List.mem_append]
    by_cases hc : y ∈ context
    · exact .inl hc
    · rw [registered_snd] at h
      have hneeded : y ∈ t.unbound context := List.mem_filter.mpr ⟨hy, decide_eq_true hc⟩
      exact .inr (h.subset (mem_enroll hneeded))
  rw [indexed_eq_ok hfree, registered_fst h]

/-- A registry that has all names that are free and not in the context stays as it
is, and its names count as further binders around the context. -/
theorem registered_eq {t : Term} {context registry : List String}
    (h : t.freeNames ⊆ context ++ registry) :
    t.registered context registry = (t.translate (ofContext (context ++ registry)), registry) := by
  have hnone : (t.unbound context).filter (· ∉ registry) = [] := by
    rw [unbound, List.filter_filter, List.filter_eq_nil_iff]
    intro y hy
    have := List.mem_append.mp (h hy)
    grind
  have hsnd : (t.registered context registry).2 = registry := by
    rw [registered_snd, enroll_eq, hnone, List.eraseDups_nil, List.append_nil]
  have hprefixed : (t.registered context registry).2 <+: registry :=
    ⟨[], (List.append_nil _).trans hsnd⟩
  exact Prod.ext (registered_fst hprefixed) hsnd

/-! ## Several terms -/

/-- The index terms of several terms, each in a context of its own, with one registry that
they share, and the registry afterwards. -/
def registeredAll (registry : List String) :
    List (List String × Term) → List IndexTerm × List String
  | [] => ([], registry)
  | (context, t) :: jobs =>
    let (first, registry) := t.registered context registry
    let (others, registry) := registeredAll registry jobs
    (first :: others, registry)

theorem registeredAll_snd (registry : List String) (jobs : List (List String × Term)) :
    (registeredAll registry jobs).2 = enroll registry (jobs.flatMap fun j => j.2.unbound j.1) := by
  induction jobs generalizing registry with
  | nil => rfl
  | cons job jobs ih =>
      rw [List.flatMap_cons, enroll_append, ← registered_snd, ← ih]
      rfl

/-- In every registry that begins with the last one, all results are strict index terms. -/
theorem registeredAll_fst {registry final : List String} {jobs : List (List String × Term)}
    (h : (registeredAll registry jobs).2 <+: final) :
    List.Forall₂ (fun job result => job.2.indexed (job.1 ++ final) = .ok result) jobs
      (registeredAll registry jobs).1 := by
  induction jobs generalizing registry with
  | nil => exact .nil
  | cons job jobs ih =>
      have hothers : (registeredAll (job.2.registered job.1 registry).2 jobs).2 <+: final := h
      have hfirst : (job.2.registered job.1 registry).2 <+: final := by
        rw [registeredAll_snd] at hothers
        exact (prefix_enroll _ _).trans hothers
      exact .cons (indexed_of_registered hfirst) (ih hothers)

/-! ## Registered names as binders -/

/-- The term beneath binders of these names, the first being the innermost. -/
def boundBy (names : List String) (t : Term) : Term := names.foldl (fun b r => lam r b) t

/-- Binders around a term stand for names in front of the context. -/
theorem indexed_boundBy (names context : List String) (t : Term) :
    (t.boundBy names).indexed context =
      (t.indexed (names ++ context)).map (IndexTerm.lam^[names.length]) := by
  induction names generalizing t with
  | nil =>
      rw [boundBy, List.foldl_nil, List.nil_append, List.length_nil, Function.iterate_zero]
      cases t.indexed context <;> rfl
  | cons r names ih =>
      change ((lam r t).boundBy names).indexed context = _
      rw [ih, indexed, List.cons_append]
      cases t.indexed (r :: (names ++ context)) <;> rfl

/-- **A registry numbers free names once and for all.**  When terms, each in a context of its
own, are indexed one after the other with one registry, the registry only grows at its end:
in the end it has the names that it had and then, each once and in the order of their first
occurrence, the names that occur free in some term and not in its context.  Every result is
the strict index term of its term in the context followed by the final registry.  So with
binders for these names around the term, the strict index term is the result beneath as many
abstractions; in the empty context these are the registry's names, the first registered
innermost. -/
theorem registeredAll_spec (registry : List String) (jobs : List (List String × Term)) :
    ∃ results final, registeredAll registry jobs = (results, final) ∧
      final = registry ++ ((jobs.flatMap fun job => job.2.freeNames.filter (· ∉ job.1)).filter
        (· ∉ registry)).eraseDups ∧
      (∀ first others, jobs = first ++ others → (registeredAll registry first).2 <+: final) ∧
      List.Forall₂ (fun job result =>
        job.2.indexed (job.1 ++ final) = .ok result ∧
          (job.2.boundBy (job.1 ++ final)).indexed [] =
            .ok (IndexTerm.lam^[(job.1 ++ final).length] result)) jobs results := by
  refine ⟨_, _, rfl, ?_, ?_, ?_⟩
  · rw [registeredAll_snd, enroll_eq]
    rfl
  · rintro first others rfl
    rw [registeredAll_snd, registeredAll_snd, List.flatMap_append, enroll_append]
    exact prefix_enroll _ _
  · refine (registeredAll_fst (List.prefix_refl _)).imp fun job result h => ⟨h, ?_⟩
    rw [indexed_boundBy, List.append_nil, h]
    rfl

/-- The second term finds `y` where the first one left it, past its own binder. -/
example :
    registeredAll [] [([], app (var "y") (var "z")),
        (["z"], lam "x" (app (var "z") (var "y")))] =
      ([.app (.bound 0) (.bound 1), .lam (.app (.bound 1) (.bound 2))], ["y", "z"]) := by
  decide

end BinaryLambda.Term
