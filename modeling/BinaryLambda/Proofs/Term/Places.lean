import BinaryLambda.Proofs.Term.Substitution

set_option autoImplicit false

/-!
# Terms: what a substitution leaves alone

A place in a term is reached from its root by turns.  Whether an occurrence of a variable
is free or bound, and which binder it belongs to, is said of places (`FreeAt`, `BoundAt`).
A substitution keeps every place of the body.  It puts a copy of the value at the free
occurrences of the replaced name, it renames the binders that stand in the way of a copy
and no others, and the occurrences follow their binders (`substitute_frame`).

The substitution goes on in a body in which a binder is already renamed, so the main lemmas
say that a renaming which is not captured moves no binder and no occurrence from its binder
(`at?_rename`, `bindersAbove_rename`, `BoundAt.rename`).
-/

namespace BinaryLambda.Term

/-! ## Places -/

/-- One turn on the way down: into the body of an abstraction, or into a side of an
application. -/
inductive Turn where
  | body
  | function
  | argument
  deriving DecidableEq, Repr, Inhabited

/-- The subterm at the place that the turns lead to. -/
def at? : Term → List Turn → Option Term
  | t, [] => some t
  | var _, _ :: _ => none
  | lam _ b, .body :: place => b.at? place
  | app f _, .function :: place => f.at? place
  | app _ a, .argument :: place => a.at? place
  | _, _ => none

/-- The names of the binders above a place. -/
def bindersAbove : Term → List Turn → List String
  | lam p b, .body :: place => p :: b.bindersAbove place
  | app f _, .function :: place => f.bindersAbove place
  | app _ a, .argument :: place => a.bindersAbove place
  | _, _ => []

/-- The variable `y` stands at the place, and no binder above it has its name. -/
inductive FreeAt (y : String) : Term → List Turn → Prop where
  | var : FreeAt y (var y) []
  | lam {p : String} {b : Term} {place : List Turn} : p ≠ y → FreeAt y b place →
      FreeAt y (lam p b) (.body :: place)
  | function {f a : Term} {place : List Turn} : FreeAt y f place →
      FreeAt y (app f a) (.function :: place)
  | argument {f a : Term} {place : List Turn} : FreeAt y a place →
      FreeAt y (app f a) (.argument :: place)

/-- The abstraction at the first place binds the variable at the second: it is the
innermost one above it that has its name. -/
inductive BoundAt : Term → List Turn → List Turn → Prop where
  | binder {p : String} {b : Term} {place : List Turn} : FreeAt p b place →
      BoundAt (lam p b) [] (.body :: place)
  | lam {p : String} {b : Term} {binder place : List Turn} : BoundAt b binder place →
      BoundAt (lam p b) (.body :: binder) (.body :: place)
  | function {f a : Term} {binder place : List Turn} : BoundAt f binder place →
      BoundAt (app f a) (.function :: binder) (.function :: place)
  | argument {f a : Term} {binder place : List Turn} : BoundAt a binder place →
      BoundAt (app f a) (.argument :: binder) (.argument :: place)

theorem at?_nil (t : Term) : t.at? [] = some t := by
  cases t <;> rfl

theorem FreeAt.at?_eq {y : String} {t : Term} {place : List Turn} (h : FreeAt y t place) :
    t.at? place = some (.var y) := by
  induction h with
  | var => rfl
  | lam _ _ ih => exact ih
  | function _ ih => exact ih
  | argument _ ih => exact ih

theorem FreeAt.mem_freeNames {y : String} {t : Term} {place : List Turn}
    (h : FreeAt y t place) : y ∈ t.freeNames := by
  induction h with
  | var => exact mem_freeNames_var.mpr rfl
  | lam hp _ ih => exact mem_freeNames_lam.mpr ⟨Ne.symm hp, ih⟩
  | function _ ih => exact mem_freeNames_app.mpr (.inl ih)
  | argument _ ih => exact mem_freeNames_app.mpr (.inr ih)

/-- An abstraction and the occurrences that it binds have one name. -/
theorem BoundAt.at?_eq {t : Term} {binder place : List Turn} (h : BoundAt t binder place) :
    ∃ y b, t.at? place = some (.var y) ∧ t.at? binder = some (.lam y b) := by
  induction h with
  | binder hfree => exact ⟨_, _, hfree.at?_eq, rfl⟩
  | lam _ ih => exact ih
  | function _ ih => exact ih
  | argument _ ih => exact ih

/-! ### What is at a place -/

theorem at?_var_eq_some {z : String} {u : Term} {place : List Turn}
    (h : (var z).at? place = some u) : place = [] ∧ u = var z := by
  cases place with
  | nil =>
      cases h
      exact ⟨rfl, rfl⟩
  | cons turn place => cases h

theorem at?_lam_eq_some {p : String} {b u : Term} {place : List Turn}
    (h : (lam p b).at? place = some u) :
    (place = [] ∧ u = lam p b) ∨ ∃ below, place = .body :: below ∧ b.at? below = some u := by
  cases place with
  | nil =>
      cases h
      exact .inl ⟨rfl, rfl⟩
  | cons turn below =>
      cases turn with
      | body => exact .inr ⟨below, rfl, h⟩
      | function | argument => cases h

theorem at?_app_eq_some {f a u : Term} {place : List Turn} (h : (app f a).at? place = some u) :
    (place = [] ∧ u = app f a) ∨ (∃ below, place = .function :: below ∧ f.at? below = some u) ∨
      ∃ below, place = .argument :: below ∧ a.at? below = some u := by
  cases place with
  | nil =>
      cases h
      exact .inl ⟨rfl, rfl⟩
  | cons turn below =>
      cases turn with
      | body => cases h
      | function => exact .inr (.inl ⟨below, rfl, h⟩)
      | argument => exact .inr (.inr ⟨below, rfl, h⟩)

/-- An occurrence of a variable is free, or an abstraction binds it. -/
theorem freeAt_or_boundAt {y : String} {t : Term} {place : List Turn}
    (h : t.at? place = some (.var y)) : FreeAt y t place ∨ ∃ binder, BoundAt t binder place := by
  induction t generalizing place with
  | var z =>
      obtain ⟨rfl, hz⟩ := at?_var_eq_some h
      cases hz
      exact .inl .var
  | lam p b ih =>
      rcases at?_lam_eq_some h with ⟨-, hu⟩ | ⟨below, rfl, hbelow⟩
      · cases hu
      · rcases ih hbelow with hfree | ⟨binder, hbound⟩
        · by_cases hp : p = y
          · subst hp
            exact .inr ⟨[], .binder hfree⟩
          · exact .inl (.lam hp hfree)
        · exact .inr ⟨.body :: binder, .lam hbound⟩
  | app f a ihf iha =>
      rcases at?_app_eq_some h with ⟨-, hu⟩ | ⟨below, rfl, hbelow⟩ | ⟨below, rfl, hbelow⟩
      · cases hu
      · exact (ihf hbelow).imp .function fun ⟨binder, hbound⟩ => ⟨_, .function hbound⟩
      · exact (iha hbelow).imp .argument fun ⟨binder, hbound⟩ => ⟨_, .argument hbound⟩

/-- A name that is free in a subterm is free in the term, unless a binder above has it. -/
theorem mem_freeNames_of_at? {t u : Term} {place : List Turn} {y : String}
    (hu : t.at? place = some u) (hy : y ∈ u.freeNames) (habove : y ∉ t.bindersAbove place) :
    y ∈ t.freeNames := by
  induction t generalizing place with
  | var z =>
      obtain ⟨-, rfl⟩ := at?_var_eq_some hu
      exact hy
  | lam p b ih =>
      rcases at?_lam_eq_some hu with ⟨-, rfl⟩ | ⟨below, rfl, hbelow⟩
      · exact hy
      · rw [bindersAbove, List.mem_cons, not_or] at habove
        exact mem_freeNames_lam.mpr ⟨habove.1, ih hbelow habove.2⟩
  | app f a ihf iha =>
      rcases at?_app_eq_some hu with ⟨-, rfl⟩ | ⟨below, rfl, hbelow⟩ | ⟨below, rfl, hbelow⟩
      · exact hy
      · exact mem_freeNames_app.mpr (.inl (ihf hbelow habove))
      · exact mem_freeNames_app.mpr (.inr (iha hbelow habove))

/-! ## Places under a renaming -/

theorem bindersAbove_rename (x c : String) (t : Term) (place : List Turn) :
    (t.rename x c).bindersAbove place = t.bindersAbove place := by
  induction t generalizing place with
  | var z => rfl
  | lam p b ih =>
      rw [rename]
      split_ifs
      · rfl
      · cases place with
        | nil => rfl
        | cons turn place =>
            cases turn with
            | body => exact congrArg (p :: ·) (ih place)
            | function | argument => rfl
  | app f a ihf iha =>
      cases place with
      | nil => rfl
      | cons turn place =>
          cases turn with
          | body => rfl
          | function => exact ihf place
          | argument => exact iha place

/-- A renaming reaches a subterm, or it stops above. -/
theorem at?_rename (x c : String) {t u : Term} {place : List Turn} (h : t.at? place = some u) :
    (t.rename x c).at? place = some u ∨ (t.rename x c).at? place = some (u.rename x c) := by
  induction t generalizing place with
  | var z =>
      obtain ⟨rfl, rfl⟩ := at?_var_eq_some h
      exact .inr (at?_nil _)
  | lam p b ih =>
      rcases at?_lam_eq_some h with ⟨rfl, rfl⟩ | ⟨below, rfl, hbelow⟩
      · exact .inr (at?_nil _)
      · rw [rename]
        split_ifs
        · exact .inl hbelow
        · exact ih hbelow
  | app f a ihf iha =>
      rcases at?_app_eq_some h with ⟨rfl, rfl⟩ | ⟨below, rfl, hbelow⟩ | ⟨below, rfl, hbelow⟩
      · exact .inr (at?_nil _)
      · exact ihf hbelow
      · exact iha hbelow

/-- A renaming has no say in whether a third name is free. -/
theorem mem_freeNames_rename_of_ne {x c y : String} (hx : y ≠ x) (hc : y ≠ c) (t : Term) :
    y ∈ (t.rename x c).freeNames ↔ y ∈ t.freeNames := by
  induction t with
  | var z =>
      rw [rename, mem_freeNames_var, mem_freeNames_var]
      split_ifs with hz
      · rw [hz]
        exact iff_of_false hc hx
      · exact Iff.rfl
  | lam p b ih =>
      rw [rename]
      split_ifs
      · exact Iff.rfl
      · rw [mem_freeNames_lam, mem_freeNames_lam, ih]
  | app f a ihf iha => rw [rename, mem_freeNames_app, mem_freeNames_app, ihf, iha]

/-- A renaming keeps an abstraction and its binder in their place. -/
theorem exists_at?_rename_eq_lam (x c : String) {t b : Term} {p : String} {place : List Turn}
    (h : t.at? place = some (.lam p b)) :
    ∃ b', (t.rename x c).at? place = some (.lam p b') ∧
      ∀ y, y ≠ x → y ≠ c → (y ∈ b'.freeNames ↔ y ∈ b.freeNames) := by
  rcases at?_rename x c h with hsame | hrenamed
  · exact ⟨b, hsame, fun y _ _ => Iff.rfl⟩
  · rw [rename] at hrenamed
    split_ifs at hrenamed
    · exact ⟨b, hrenamed, fun y _ _ => Iff.rfl⟩
    · exact ⟨b.rename x c, hrenamed, fun y hx hc => mem_freeNames_rename_of_ne hx hc b⟩

/-- A renaming to the same name changes nothing. -/
theorem rename_self (x : String) (t : Term) : t.rename x x = t := by
  induction t with
  | var z =>
      rw [rename]
      split_ifs with hz
      · rw [hz]
      · rfl
  | lam p b ih =>
      rw [rename, ih]
      exact ite_self _
  | app f a ihf iha => rw [rename, ihf, iha]

/-- A name does not capture itself. -/
theorem bindsFree_self (x : String) (t : Term) : t.bindsFree x x = false := by
  induction t with
  | var z => rfl
  | lam p b ih =>
      by_cases hp : p = x
      · rw [hp, bindsFree_lam_of_eq]
      · rw [bindsFree_lam_of_ne hp hp, ih]
  | app f a ihf iha => exact bindsFree_app_eq_false.mpr ⟨ihf, iha⟩

theorem FreeAt.rename_of_ne {x y : String} {t : Term} {place : List Turn}
    (h : FreeAt y t place) (hy : y ≠ x) (c : String) : FreeAt y (t.rename x c) place := by
  induction h with
  | var =>
      rw [Term.rename, if_neg hy]
      exact .var
  | lam hp hb ih =>
      rw [Term.rename]
      split_ifs
      · exact .lam hp hb
      · exact .lam hp ih
  | function _ ih => exact .function ih
  | argument _ ih => exact .argument ih

/-- Where nothing captures the new name, a free occurrence of the old one becomes a free
occurrence of the new one. -/
theorem FreeAt.rename {x c : String} {t : Term} {place : List Turn} (h : FreeAt x t place)
    (hbinds : t.bindsFree c x = false) : FreeAt c (t.rename x c) place := by
  induction h with
  | var =>
      rw [Term.rename, if_pos rfl]
      exact .var
  | @lam p b place hp hb ih =>
      by_cases hpc : p = c
      · subst hpc
        rw [bindsFree_lam_binder hp, occursFree_eq_false] at hbinds
        exact absurd hb.mem_freeNames hbinds
      · rw [bindsFree_lam_of_ne hp hpc] at hbinds
        rw [rename_lam_of_ne hp hpc]
        exact .lam hpc (ih hbinds)
  | function _ ih => exact .function (ih (bindsFree_app_eq_false.mp hbinds).1)
  | argument _ ih => exact .argument (ih (bindsFree_app_eq_false.mp hbinds).2)

/-- A renaming takes no occurrence from its binder. -/
theorem BoundAt.rename {t : Term} {binder place : List Turn} (h : BoundAt t binder place)
    (x c : String) : BoundAt (t.rename x c) binder place := by
  induction h with
  | binder hfree =>
      rw [Term.rename]
      split_ifs with hstop
      · exact .binder hfree
      · exact .binder (hfree.rename_of_ne (not_or.mp hstop).1 c)
  | lam hb ih =>
      rw [Term.rename]
      split_ifs
      · exact .lam hb
      · exact .lam ih
  | function _ ih => exact .function ih
  | argument _ ih => exact .argument ih

/-! ## What a substitution changes -/

/-- The binder at a place would capture: its name is free in the value, and beneath it
there is an occurrence to be replaced. -/
def Threatens (value : Term) (x : String) (t : Term) (place : List Turn) : Prop :=
  ∃ p b, t.at? place = some (.lam p b) ∧ p ∈ value.freeNames ∧ x ∈ b.freeNames ∧ p ≠ x ∧
    x ∉ t.bindersAbove place

theorem threatens_iff {value t b : Term} {x p : String} {place : List Turn}
    (h : t.at? place = some (.lam p b)) :
    Threatens value x t place ↔
      p ∈ value.freeNames ∧ x ∈ b.freeNames ∧ p ≠ x ∧ x ∉ t.bindersAbove place := by
  constructor
  · rintro ⟨p', b', hat, hthreat⟩
    rw [h] at hat
    cases hat
    exact hthreat
  · intro hthreat
    exact ⟨p, b, h, hthreat⟩

/-- The term `r` is `t` with copies of the value for the free occurrences of `x`: the other
places are what they were, but for the names of binders that would capture and of the
occurrences that they bind. -/
structure Replaces (value : Term) (x : String) (t r : Term) : Prop where
  /-- each free occurrence of `x` becomes the value -/
  copy : ∀ {place}, FreeAt x t place → r.at? place = some value
  /-- the other free occurrences stay -/
  free : ∀ {y place}, y ≠ x → FreeAt y t place → r.at? place = some (.var y)
  /-- an occurrence that is bound has the name that its binder has now -/
  bound : ∀ {binder place}, BoundAt t binder place →
    ∃ z b, r.at? place = some (.var z) ∧ r.at? binder = some (.lam z b)
  application : ∀ {place f a}, t.at? place = some (.app f a) →
    ∃ f' a', r.at? place = some (.app f' a')
  /-- a binder is renamed exactly if it would capture -/
  abstraction : ∀ {place p b}, t.at? place = some (.lam p b) →
    ∃ q b', r.at? place = some (.lam q b') ∧ (q ≠ p ↔ Threatens value x t place)

namespace Replaces

variable {value : Term} {x : String}

/-- Where there is nothing to replace, nothing changes. -/
theorem of_notMem {t : Term} (h : x ∉ t.freeNames) : Replaces value x t t where
  copy hfree := absurd hfree.mem_freeNames h
  free _ hfree := hfree.at?_eq
  bound hbound := hbound.at?_eq
  application hat := ⟨_, _, hat⟩
  abstraction {place p b} hat := by
    refine ⟨p, b, hat, iff_of_false (not_not_intro rfl) ?_⟩
    rw [threatens_iff hat]
    rintro ⟨-, hb, hp, habove⟩
    exact h (mem_freeNames_of_at? hat (mem_freeNames_lam.mpr ⟨Ne.symm hp, hb⟩) habove)

theorem var_self : Replaces value x (var x) value where
  copy hfree := by
    cases hfree
    exact at?_nil value
  free hne hfree := by
    cases hfree
    exact absurd rfl hne
  bound hbound := nomatch hbound
  application hat := nomatch (at?_var_eq_some hat).2
  abstraction hat := nomatch (at?_var_eq_some hat).2

/-- A binder that keeps its name or gets another one, depending on whether it would capture,
above a body in which its occurrences have that name. -/
theorem lam {p q : String} {b r : Term} (hp : p ≠ x) (hq : q ≠ x)
    (hbinds : b.bindsFree q p = false)
    (hthreat : q ≠ p ↔ p ∈ value.freeNames ∧ x ∈ b.freeNames)
    (h : Replaces value x (b.rename p q) r) : Replaces value x (.lam p b) (.lam q r) where
  copy hfree := by
    cases hfree with
    | lam _ hb => exact h.copy (hb.rename_of_ne (Ne.symm hp) q)
  free hne hfree := by
    cases hfree with
    | lam hpy hb => exact h.free hne (hb.rename_of_ne (Ne.symm hpy) q)
  bound hbound := by
    cases hbound with
    | binder hfree => exact ⟨q, r, h.free hq (hfree.rename hbinds), rfl⟩
    | lam hb => exact h.bound (hb.rename p q)
  application hat := by
    rcases at?_lam_eq_some hat with ⟨-, hu⟩ | ⟨below, rfl, hbelow⟩
    · cases hu
    · rcases at?_rename p q hbelow with hsame | hrenamed
      · exact h.application hsame
      · exact h.application hrenamed
  abstraction hat := by
    rcases at?_lam_eq_some hat with ⟨rfl, hu⟩ | ⟨below, rfl, hbelow⟩
    · cases hu
      refine ⟨q, r, rfl, hthreat.trans ?_⟩
      rw [threatens_iff (at?_nil _)]
      simp [bindersAbove, hp]
    · obtain ⟨b₁, hrenamed, hnames⟩ := exists_at?_rename_eq_lam p q hbelow
      obtain ⟨q', b₂, hr, hq'⟩ := h.abstraction hrenamed
      refine ⟨q', b₂, hr, hq'.trans ?_⟩
      rw [threatens_iff hrenamed, threatens_iff hat, hnames x (Ne.symm hp) (Ne.symm hq),
        bindersAbove_rename, bindersAbove, List.mem_cons, not_or, and_iff_right (Ne.symm hp)]

theorem app {f f' a a' : Term} (hf : Replaces value x f f') (ha : Replaces value x a a') :
    Replaces value x (.app f a) (.app f' a') where
  copy hfree := by
    cases hfree with
    | function hfree => exact hf.copy hfree
    | argument hfree => exact ha.copy hfree
  free hne hfree := by
    cases hfree with
    | function hfree => exact hf.free hne hfree
    | argument hfree => exact ha.free hne hfree
  bound hbound := by
    cases hbound with
    | function hbound => exact hf.bound hbound
    | argument hbound => exact ha.bound hbound
  application hat := by
    rcases at?_app_eq_some hat with ⟨rfl, -⟩ | ⟨below, rfl, hbelow⟩ | ⟨below, rfl, hbelow⟩
    · exact ⟨f', a', rfl⟩
    · exact hf.application hbelow
    · exact ha.application hbelow
  abstraction hat := by
    rcases at?_app_eq_some hat with ⟨-, hu⟩ | ⟨below, rfl, hbelow⟩ | ⟨below, rfl, hbelow⟩
    · cases hu
    · exact hf.abstraction hbelow
    · exact ha.abstraction hbelow

/-- An occurrence that is not to be replaced keeps its name, unless the binder that it
belongs to would capture. -/
theorem kept {t r : Term} (h : Replaces value x t r) {y : String} {place : List Turn}
    (hy : t.at? place = some (.var y)) (hx : ¬ FreeAt x t place)
    (hbinders : ∀ binder, BoundAt t binder place → ¬ Threatens value x t binder) :
    r.at? place = some (.var y) := by
  rcases freeAt_or_boundAt hy with hfree | ⟨binder, hbound⟩
  · have hne : y ≠ x := by
      rintro rfl
      exact hx hfree
    exact h.free hne hfree
  · obtain ⟨y', b, hplace, hbinder⟩ := hbound.at?_eq
    rw [hy] at hplace
    cases hplace
    obtain ⟨q, b', hr, hq⟩ := h.abstraction hbinder
    obtain ⟨z, b'', hz, hr'⟩ := h.bound hbound
    rw [hr] at hr'
    cases hr'
    have hsame : q = y := not_not.mp fun hne => hbinders binder hbound (hq.mp hne)
    rw [hz, hsame]

end Replaces

/-- What the rules give is the body with copies of the value, and no other binder is renamed
than one that would capture. -/
theorem SubstitutesTo.replaces {value t r : Term} {x : String} (h : SubstitutesTo value x t r) :
    Replaces value x t r := by
  induction h with
  | hit => exact .var_self
  | @other y hy =>
      apply Replaces.of_notMem
      rw [mem_freeNames_var]
      exact Ne.symm hy
  | shadowed b =>
      apply Replaces.of_notMem
      rw [mem_freeNames_lam]
      exact fun hfree => hfree.1 rfl
  | @under p b r hx hp _ ih =>
      apply Replaces.lam hx hx (bindsFree_self p b)
      · exact iff_of_false (not_not_intro rfl) fun hthreat => hp hthreat.1
      · rw [rename_self]
        exact ih
  | absent _ _ hb =>
      apply Replaces.of_notMem
      rw [mem_freeNames_lam]
      exact fun hfree => hb hfree.2
  | renamed hx hp hb hq _ ih =>
      obtain ⟨hne, havoid, _, hbinds⟩ := canRename_iff.mp (canRename_of_freshName hq).2
      rw [List.mem_cons, not_or] at havoid
      exact .lam hx havoid.1 hbinds (iff_of_true hne ⟨hp, hb⟩) ih
  | app _ _ ihf iha => exact .app ihf iha

/-- A variable for itself changes nothing. -/
theorem substitute_var_self (x : String) (t : Term) : substitute (var x) x t = .ok t := by
  fun_induction substitute (var x) x t with
  | case1 y =>
      by_cases hy : y = x
      · rw [if_pos hy, hy]
      · rw [if_neg hy]
  | case2 b => rfl
  | case3 p b hx hp ih =>
      rw [ih]
      rfl
  | case4 p b hx hp hb => rfl
  | case5 p b hx hp =>
      rw [occursFree_var, beq_eq_false_iff_ne] at hp
      exact absurd hx hp
  | case6 p b hx hp =>
      rw [occursFree_var, beq_eq_false_iff_ne] at hp
      exact absurd hx hp
  | case7 f a e he ihf =>
      rw [ihf] at he
      cases he
  | case8 f a f' hf ihf iha =>
      rw [ihf] at hf
      cases hf
      rw [iha]
      rfl

/-- **A substitution renames only what it must.**  In the result of a substitution, every
free occurrence of the replaced name has become the value, and all other places are what
they were: an application, an abstraction or a variable.  A binder has another name exactly
if it is free in the value and has an occurrence to be replaced beneath it, which neither
the binder itself nor one above it hides; an occurrence that is bound has the name of its
binder, and one that is free, or whose binder is not renamed, has the name it had.  Where
there is nothing to replace, or a variable replaces itself, the body is left as it is, and
that does not fail. -/
theorem substitute_frame (value body : Term) (x : String) :
    (∀ r, substitute value x body = .ok r →
      (∀ place, FreeAt x body place → r.at? place = some value) ∧
      (∀ place f a, body.at? place = some (app f a) →
        ∃ f' a', r.at? place = some (app f' a')) ∧
      (∀ place p b, body.at? place = some (lam p b) →
        ∃ q b', r.at? place = some (lam q b') ∧
          (q ≠ p ↔ Threatens value x body place)) ∧
      (∀ place y, body.at? place = some (var y) → ¬ FreeAt x body place →
        (∀ binder, BoundAt body binder place →
          ∃ z b, r.at? place = some (var z) ∧ r.at? binder = some (lam z b)) ∧
        ((∀ binder, BoundAt body binder place → ¬ Threatens value x body binder) →
          r.at? place = some (var y)))) ∧
    (x ∉ body.freeNames → substitute value x body = .ok body) ∧
    substitute (var x) x body = .ok body := by
  refine ⟨?_, ?_, substitute_var_self x body⟩
  · intro r hr
    have hreplaces := (substitutesTo_of_substitute hr).replaces
    refine ⟨?_, ?_, ?_, ?_⟩
    · intro place hfree
      exact hreplaces.copy hfree
    · intro place f a hat
      exact hreplaces.application hat
    · intro place p b hat
      exact hreplaces.abstraction hat
    · intro place y hat hx
      exact ⟨fun binder hbound => hreplaces.bound hbound, hreplaces.kept hat hx⟩
  · intro hx
    exact (SubstitutesTo.of_notMem hx value).substitute_eq

/-- The outer binder would capture, so its own occurrence follows it; nothing is to be
replaced beneath the inner one. -/
example : substitute (var "y") "x"
      (lam "y" (app (app (var "x") (var "y")) (lam "y" (var "y")))) =
    .ok (lam "z" (app (app (var "y") (var "z")) (lam "y" (var "y")))) := by
  cbv

end BinaryLambda.Term
