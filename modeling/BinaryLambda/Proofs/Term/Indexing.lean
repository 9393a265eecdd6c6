import BinaryLambda.Proofs.Draft
import BinaryLambda.Proofs.Term.Places

set_option autoImplicit false

/-!
# Terms: strict indexing

A name is free in a term if it has a free occurrence (`mem_freeNames_iff_freeAt`).  Strict
indexing is refused exactly if some free name is missing from the context, and then it names
the one whose occurrence is leftmost (`leftmostUnbound_of_indexed`).  Otherwise it is the
translation in which every name stands for its place in the context (`indexed_eq_ok_iff`):
every index stays below the binders above it and the names of the context, and names behind
the context change nothing.
-/

namespace BinaryLambda

/-! ## Places of indices -/

/-- The index `i`, counted from 1, stands in the index term beneath `depth` abstractions. -/
inductive IndexTerm.IndexAt : IndexTerm → Nat → Nat → Prop where
  | bound (n : Nat) : IndexAt (.bound n) 0 (n + 1)
  | lam {b : IndexTerm} {depth i : Nat} : IndexAt b depth i → IndexAt (.lam b) (depth + 1) i
  | function {f a : IndexTerm} {depth i : Nat} : IndexAt f depth i → IndexAt (.app f a) depth i
  | argument {f a : IndexTerm} {depth i : Nat} : IndexAt a depth i → IndexAt (.app f a) depth i

namespace Term

open Environment

/-! ## Free occurrences -/

/-- The free names are those with a free occurrence. -/
theorem mem_freeNames_iff_freeAt {v : String} {t : Term} :
    v ∈ t.freeNames ↔ ∃ place, FreeAt v t place := by
  constructor
  · intro h
    induction t with
    | var x =>
        rw [mem_freeNames_var.mp h]
        exact ⟨[], .var⟩
    | lam p b ih =>
        obtain ⟨hne, hb⟩ := mem_freeNames_lam.mp h
        obtain ⟨place, hplace⟩ := ih hb
        exact ⟨_, .lam (Ne.symm hne) hplace⟩
    | app f a ihf iha =>
        rcases mem_freeNames_app.mp h with hf | ha
        · obtain ⟨place, hplace⟩ := ihf hf
          exact ⟨_, .function hplace⟩
        · obtain ⟨place, hplace⟩ := iha ha
          exact ⟨_, .argument hplace⟩
  · rintro ⟨place, hplace⟩
    exact hplace.mem_freeNames

/-- The first place comes before the second when a term is read from left to right: at some
application, one leads into the function and the other into the argument. -/
inductive LeftOf : List Turn → List Turn → Prop where
  | sides (place place' : List Turn) : LeftOf (.function :: place) (.argument :: place')
  | under (turn : Turn) {place place' : List Turn} : LeftOf place place' →
      LeftOf (turn :: place) (turn :: place')

/-- At the place stands the leftmost free occurrence of a name that is not in the context, and
`v` is that name. -/
def LeftmostUnbound (context : List String) (v : String) (t : Term) (place : List Turn) : Prop :=
  FreeAt v t place ∧ v ∉ context ∧
    ∀ y other, FreeAt y t other → y ∉ context → other = place ∨ LeftOf place other

namespace LeftmostUnbound

variable {context : List String} {v : String} {place : List Turn}

theorem var (h : v ∉ context) : LeftmostUnbound context v (var v) [] := by
  refine ⟨.var, h, ?_⟩
  rintro y other ⟨⟩ _
  exact .inl rfl

/-- Beneath a binder, its name is in the context. -/
theorem lam {p : String} {b : Term} (h : LeftmostUnbound (p :: context) v b place) :
    LeftmostUnbound context v (lam p b) (.body :: place) := by
  obtain ⟨hfree, hv, hleft⟩ := h
  rw [List.mem_cons, not_or] at hv
  refine ⟨.lam (Ne.symm hv.1) hfree, hv.2, ?_⟩
  rintro y other (_ | ⟨hne, hother⟩ | _ | _) hy
  have hy' : y ∉ p :: context := List.not_mem_cons_of_ne_of_not_mem (Ne.symm hne) hy
  rcases hleft y _ hother hy' with rfl | hlater
  · exact .inl rfl
  · exact .inr (.under .body hlater)

theorem function {f : Term} (h : LeftmostUnbound context v f place) (a : Term) :
    LeftmostUnbound context v (app f a) (.function :: place) := by
  obtain ⟨hfree, hv, hleft⟩ := h
  refine ⟨.function hfree, hv, ?_⟩
  rintro y other (_ | _ | hother | _) hy
  · rcases hleft y _ hother hy with rfl | hlater
    · exact .inl rfl
    · exact .inr (.under .function hlater)
  · exact .inr (.sides ..)

/-- Nothing is left of the argument if the context has all free names of the function. -/
theorem argument {f a : Term} (hf : f.freeNames ⊆ context) (h : LeftmostUnbound context v a place) :
    LeftmostUnbound context v (app f a) (.argument :: place) := by
  obtain ⟨hfree, hv, hleft⟩ := h
  refine ⟨.argument hfree, hv, ?_⟩
  rintro y other (_ | _ | hother | hother) hy
  · exact absurd (hf hother.mem_freeNames) hy
  · rcases hleft y _ hother hy with rfl | hlater
    · exact .inl rfl
    · exact .inr (.under .argument hlater)

end LeftmostUnbound

/-! ## Indexing -/

theorem freeNames_subset_of_indexed {t : Term} {context : List String} {T : IndexTerm}
    (h : t.indexed context = .ok T) : t.freeNames ⊆ context := by
  induction t generalizing context T with
  | var x =>
      apply freeNames_var_subset_iff.mpr
      by_contra hx
      rw [indexed, List.idxOf?_eq_none_iff.mpr hx] at h
      cases h
  | lam p b ih =>
      obtain ⟨B, hb, -⟩ := map_eq_ok_iff.mp h
      exact freeNames_lam_subset_iff.mpr (ih hb)
  | app f a ihf iha =>
      rw [indexed] at h
      cases hf : f.indexed context with
      | error e =>
          rw [hf] at h
          cases h
      | ok F =>
          rw [hf] at h
          obtain ⟨A, ha, -⟩ := map_eq_ok_iff.mp h
          exact freeNames_app_subset_iff.mpr ⟨ihf hf, iha ha⟩

/-- Strict indexing is the translation in a context that has all free names. -/
theorem indexed_eq_ok_iff {t : Term} {context : List String} {T : IndexTerm} :
    t.indexed context = .ok T ↔ t.freeNames ⊆ context ∧ t.translate (ofContext context) = T := by
  constructor
  · intro h
    have hfree := freeNames_subset_of_indexed h
    rw [indexed_eq_ok hfree, Except.ok.injEq] at h
    exact ⟨hfree, h⟩
  · rintro ⟨hfree, rfl⟩
    exact indexed_eq_ok hfree

/-- An indexing that is refused names the leftmost occurrence that has no binder and no place
in the context. -/
theorem leftmostUnbound_of_indexed {t : Term} {context : List String} {e : Unbound}
    (h : t.indexed context = .error e) : ∃ place, LeftmostUnbound context e.name t place := by
  induction t generalizing context with
  | var x =>
      by_cases hx : x ∈ context
      · rw [indexed_eq_ok (freeNames_var_subset_iff.mpr hx)] at h
        cases h
      · rw [indexed, List.idxOf?_eq_none_iff.mpr hx] at h
        cases h
        exact ⟨[], .var hx⟩
  | lam p b ih =>
      obtain ⟨place, hplace⟩ := ih (map_eq_error_iff.mp h)
      exact ⟨_, hplace.lam⟩
  | app f a ihf iha =>
      rw [indexed] at h
      cases hf : f.indexed context with
      | error e' =>
          rw [hf] at h
          cases h
          obtain ⟨place, hplace⟩ := ihf hf
          exact ⟨_, hplace.function a⟩
      | ok F =>
          rw [hf] at h
          obtain ⟨place, hplace⟩ := iha (map_eq_error_iff.mp h)
          exact ⟨_, hplace.argument (freeNames_subset_of_indexed hf)⟩

/-- An index is at least 1, and it does not reach beyond the context. -/
theorem index_le_of_indexed {t : Term} {context : List String} (h : t.freeNames ⊆ context)
    {depth i : Nat} (hi : (t.translate (ofContext context)).IndexAt depth i) :
    1 ≤ i ∧ i ≤ depth + context.length := by
  induction t generalizing context depth with
  | var x =>
      cases hi
      have hlt := List.idxOf_lt_length_of_mem (freeNames_var_subset_iff.mp h)
      omega
  | lam p b ih =>
      rw [translate_lam, push_ofContext] at hi
      cases hi with
      | lam hi =>
          have hbody := ih (freeNames_lam_subset_iff.mp h) hi
          rw [List.length_cons] at hbody
          omega
  | app f a ihf iha =>
      obtain ⟨hf, ha⟩ := freeNames_app_subset_iff.mp h
      cases hi with
      | function hi => exact ihf hf hi
      | argument hi => exact iha ha hi

/-- Names behind a context that has all free names change nothing. -/
theorem translate_ofContext_append {t : Term} {context : List String} (h : t.freeNames ⊆ context)
    (outer : List String) :
    t.translate (ofContext (context ++ outer)) = t.translate (ofContext context) := by
  apply translate_congr
  intro y hy
  rw [ofContext, ofContext, List.idxOf_append_of_mem (h hy)]

/-- **Freeness and strict indexing.**  A name occurs free if and only if it is among the free
names, that is, if it has a free occurrence.  Strict indexing is refused if and only if some
free name is not in the context, and the name that it reports is that of the leftmost free
occurrence of such a name.  Otherwise there is an index term.  Each of its indices is at least
1 and at most the number of the abstractions above it and of the names in the context.  So its
code and its text are written although every node is checked, and names behind the context
leave it as it is. -/
theorem indexed_strict (t : Term) (context : List String) :
    (∀ v, (t.occursFree v = true ↔ v ∈ t.freeNames) ∧
      (v ∈ t.freeNames ↔ ∃ place, FreeAt v t place)) ∧
    ((∃ e, t.indexed context = .error e) ↔ ∃ v ∈ t.freeNames, v ∉ context) ∧
    (∀ e, t.indexed context = .error e → ∃ place, LeftmostUnbound context e.name t place) ∧
    ((∀ v ∈ t.freeNames, v ∈ context) → ∃ T, t.indexed context = .ok T ∧
      (∀ depth i, T.IndexAt depth i → 1 ≤ i ∧ i ≤ depth + context.length) ∧
      Draft.Walk.bits (.ofIndexTerm T) = .ok T.bits ∧
      Draft.Walk.indexText (.ofIndexTerm T) = .ok T.text ∧
      ∀ outer, t.indexed (context ++ outer) = .ok T) := by
  refine ⟨fun v => ⟨occursFree_eq_true, mem_freeNames_iff_freeAt⟩, ⟨?_, ?_⟩,
    fun e => leftmostUnbound_of_indexed, ?_⟩
  · rintro ⟨e, he⟩
    obtain ⟨place, hfree, hv, -⟩ := leftmostUnbound_of_indexed he
    exact ⟨e.name, hfree.mem_freeNames, hv⟩
  · rintro ⟨v, hfree, hv⟩
    cases hindexed : t.indexed context with
    | error e => exact ⟨e, rfl⟩
    | ok T => exact absurd (freeNames_subset_of_indexed hindexed hfree) hv
  · intro h
    refine ⟨_, indexed_eq_ok h, fun depth i => index_le_of_indexed h,
      Draft.Walk.bits_of_indexTerm? (Draft.indexTerm?_ofIndexTerm _),
      Draft.Walk.indexText_of_indexTerm? (Draft.indexTerm?_ofIndexTerm _), fun outer => ?_⟩
    have houter : t.freeNames ⊆ context ++ outer := fun v hv => List.mem_append_left _ (h v hv)
    rw [indexed_eq_ok houter, translate_ofContext_append h]

end Term

end BinaryLambda
