import BinaryLambda.Proofs.Term.FreshName
import BinaryLambda.Proofs.Term.Substitution
import Mathlib.Data.Finset.Card

set_option autoImplicit false

/-!
# Terms: the supply of names

A binder can be renamed as long as some letter is neither among the names in play nor
among the binders beneath it (`exists_freshName`).  A substitution passes one binder for
every name that it brings into play, so the letters of the free names and the
abstractions of the body together bound what it needs: if there are at most as many as
there are letters, it does not fail (`exists_substitute_eq_ok`).
-/

namespace BinaryLambda.Term

/-! ## Letters -/

/-- The number of different letters among names. -/
def letterCount (names : List String) : Nat := (names.toFinset.filter IsLetter).card

theorem letterCount_mono {names names' : List String} (h : names ⊆ names') :
    letterCount names ≤ letterCount names' := by
  apply Finset.card_le_card
  apply Finset.filter_subset_filter
  intro y hy
  rw [List.mem_toFinset] at hy ⊢
  exact h hy

theorem letterCount_cons_le (y : String) (names : List String) :
    letterCount (y :: names) ≤ letterCount names + 1 := by
  rw [letterCount, letterCount, List.toFinset_cons, Finset.filter_insert]
  split_ifs
  · exact Finset.card_insert_le _ _
  · exact Nat.le_succ _

/-- The letters of the alphabet. -/
def letters : Finset String := (alphabet.map Char.toString).toFinset

theorem mem_letters {c : String} : c ∈ letters ↔ IsLetter c := List.mem_toFinset

theorem card_letters : letters.card = 26 := by decide

/-! ## Binders -/

/-- The names of the binders. -/
def binders : Term → List String
  | var _ => []
  | lam p b => p :: b.binders
  | app f a => f.binders ++ a.binders

theorem length_binders (t : Term) : t.binders.length = t.abstractions := by
  induction t with
  | var x => rfl
  | lam p b ih => rw [binders, List.length_cons, ih, abstractions]
  | app f a ihf iha => rw [binders, List.length_append, ihf, iha, abstractions]

/-- Only a binder captures. -/
theorem mem_binders_of_bindsFree {t : Term} {c x : String} (h : t.bindsFree c x = true) :
    c ∈ t.binders := by
  induction t with
  | var y => cases h
  | lam p b ih =>
      rw [bindsFree] at h
      split_ifs at h with hpx hpc
      · exact hpc ▸ .head _
      · exact .tail _ (ih h)
  | app f a ihf iha =>
      rw [bindsFree, Bool.or_eq_true] at h
      exact List.mem_append.mpr (h.imp ihf iha)

@[simp] theorem abstractions_rename (x c : String) (t : Term) :
    (t.rename x c).abstractions = t.abstractions := by
  induction t with
  | var y => rfl
  | lam p b ih =>
      rw [rename]
      split_ifs
      · rfl
      · rw [abstractions, abstractions, ih]
  | app f a ihf iha => rw [rename, abstractions, abstractions, ihf, iha]

/-! ## Supply -/

/-- There is a letter beside the names of two lists that are short enough; of the first
only the letters count. -/
theorem exists_letter_notMem {names names' : List String}
    (h : letterCount names + names'.length < 26) : ∃ c, IsLetter c ∧ c ∉ names ∧ c ∉ names' := by
  have hcard : (names.toFinset.filter IsLetter ∪ names'.toFinset).card < letters.card := by
    calc (names.toFinset.filter IsLetter ∪ names'.toFinset).card
        ≤ letterCount names + names'.toFinset.card := Finset.card_union_le _ _
      _ ≤ letterCount names + names'.length := Nat.add_le_add_left (List.toFinset_card_le _) _
      _ < letters.card := by rwa [card_letters]
  obtain ⟨c, hc, hnot⟩ := Finset.exists_mem_notMem_of_card_lt_card hcard
  rw [mem_letters] at hc
  rw [Finset.mem_union, Finset.mem_filter, and_iff_left hc, List.mem_toFinset, List.mem_toFinset,
    not_or] at hnot
  exact ⟨c, hc, hnot⟩

/-- A fresh name is found as long as a letter is left beside the binder, the names to be
avoided, the free names of the body and the binders in it. -/
theorem exists_freshName {p : String} {b : Term} {avoid : List String}
    (h : letterCount (p :: (avoid ++ b.freeNames)) + b.abstractions < 26) :
    ∃ q, freshName p b avoid = .ok q := by
  rw [← length_binders] at h
  obtain ⟨c, hc, hnames, hbinders⟩ := exists_letter_notMem h
  rw [List.mem_cons, List.mem_append, not_or, not_or] at hnames
  obtain ⟨hp, havoid, hfree⟩ := hnames
  have hbinds : b.bindsFree c p = false :=
    Bool.eq_false_iff.mpr fun h => hbinders (mem_binders_of_bindsFree h)
  have hpasses : canRename p b avoid c = true := canRename_iff.mpr ⟨hp, havoid, hfree, hbinds⟩
  cases hfresh : freshName p b avoid with
  | ok q => exact ⟨q, rfl⟩
  | error e =>
      rw [(freshName_eq_error_iff.mp hfresh).2 c hc] at hpasses
      cases hpasses

/-- What a substitution has to provide for: the letters in play, and an abstraction for
each letter that may come into play. -/
def demand (value : Term) (x : String) (t : Term) : Nat :=
  letterCount (x :: (value.freeNames ++ t.freeNames)) + t.abstractions

theorem demand_function_le (value : Term) (x : String) (f a : Term) :
    demand value x f ≤ demand value x (app f a) := by
  apply Nat.add_le_add
  · apply letterCount_mono
    grind [mem_freeNames_app]
  · exact Nat.le_add_right _ _

theorem demand_argument_le (value : Term) (x : String) (f a : Term) :
    demand value x a ≤ demand value x (app f a) := by
  apply Nat.add_le_add
  · apply letterCount_mono
    grind [mem_freeNames_app]
  · exact Nat.le_add_left _ _

/-- Beneath a binder there is one name more in play and one abstraction less to pass. -/
theorem demand_body_le {value b b' : Term} {x p q : String}
    (habstractions : b'.abstractions = b.abstractions)
    (hfree : b'.freeNames ⊆ q :: (lam p b).freeNames) :
    demand value x b' ≤ demand value x (lam p b) := by
  have hnames : x :: (value.freeNames ++ b'.freeNames) ⊆
      q :: x :: (value.freeNames ++ (lam p b).freeNames) := by
    intro y hy
    have := @hfree y
    grind
  calc demand value x b'
      ≤ letterCount (q :: x :: (value.freeNames ++ (lam p b).freeNames)) + b.abstractions :=
        Nat.add_le_add (letterCount_mono hnames) (Nat.le_of_eq habstractions)
    _ ≤ letterCount (x :: (value.freeNames ++ (lam p b).freeNames)) + 1 + b.abstractions :=
        Nat.add_le_add_right (letterCount_cons_le _ _) _
    _ = demand value x (lam p b) := by rw [demand, abstractions, Nat.add_assoc, Nat.add_comm 1]

/-- A binder that would capture can be renamed while the demand is met. -/
theorem exists_freshName_of_demand_le {value b : Term} {x p : String}
    (hp : p ∈ value.freeNames) (h : demand value x (lam p b) ≤ 26) :
    ∃ q, freshName p b (x :: value.freeNames) = .ok q := by
  apply exists_freshName
  have hnames : p :: (x :: value.freeNames ++ b.freeNames) ⊆
      x :: (value.freeNames ++ (lam p b).freeNames) := by
    intro y hy
    have hlam := @mem_freeNames_lam p y b
    grind
  have hcount := letterCount_mono hnames
  rw [demand, abstractions] at h
  omega

/-- A renamed binder leaves no other name behind than the new one. -/
theorem freeNames_rename_subset {b : Term} {p q : String} (h : b.bindsFree q p = false) :
    (b.rename p q).freeNames ⊆ q :: (lam p b).freeNames := by
  intro y hy
  rw [List.mem_cons, mem_freeNames_lam]
  exact ((mem_freeNames_rename h).mp hy).imp_left And.left

/-- **Substitution does not run out of names on small terms.**  If the different letters
among the free names of the value, those of the body and the replaced name, together with
the abstractions of the body, are no more than there are letters, the substitution
succeeds. -/
theorem exists_substitute_eq_ok {value body : Term} {x : String}
    (h : letterCount (x :: (value.freeNames ++ body.freeNames)) + body.abstractions ≤ 26) :
    ∃ r, substitute value x body = .ok r := by
  change demand value x body ≤ 26 at h
  fun_induction substitute value x body with
  | case1 y => exact ⟨_, rfl⟩
  | case2 b => exact ⟨_, rfl⟩
  | case3 p b hx hp ih =>
      have hbody : demand value x b ≤ demand value x (lam p b) :=
        demand_body_le rfl (freeNames_lam_subset_iff.mp (List.Subset.refl _))
      obtain ⟨r, hr⟩ := ih (hbody.trans h)
      exact ⟨lam p r, map_eq_ok_iff.mpr ⟨r, hr, rfl⟩⟩
  | case4 p b hx hp hb => exact ⟨_, rfl⟩
  | case5 p b hx hp hb e he =>
      -- the one way to fail at a binder
      rw [Bool.not_eq_false, occursFree_eq_true] at hp
      obtain ⟨q, hq⟩ := exists_freshName_of_demand_le hp h
      rw [hq] at he
      cases he
  | case6 p b hx hp hb q hq ih =>
      have hbinds := (canRename_iff.mp (canRename_of_freshName hq).2).2.2.2
      have hbody : demand value x (b.rename p q) ≤ demand value x (lam p b) :=
        demand_body_le (abstractions_rename p q b) (freeNames_rename_subset hbinds)
      obtain ⟨r, hr⟩ := ih (hbody.trans h)
      exact ⟨lam q r, map_eq_ok_iff.mpr ⟨r, hr, rfl⟩⟩
  | case7 f a e he ihf =>
      obtain ⟨f', hf⟩ := ihf ((demand_function_le value x f a).trans h)
      rw [hf] at he
      cases he
  | case8 f a f' hf ihf iha =>
      obtain ⟨a', ha⟩ := iha ((demand_argument_le value x f a).trans h)
      exact ⟨app f' a', map_eq_ok_iff.mpr ⟨a', ha, rfl⟩⟩

/-- A binder `y` above `n` others, all of them above an occurrence of `y`. -/
def crowded (n : Nat) : Term :=
  lam "y" (app (var "x")
    (((alphabet.erase 'x').erase 'y').take n |>.foldr (fun c b => lam c.toString b) (var "y")))

/-- The bound is met exactly, and only `z` is left for the binder; with one abstraction
more there is no letter left. -/
theorem exists_substitute_eq_ok_crowded :
    letterCount ("x" :: ((var "y").freeNames ++ (crowded 23).freeNames)) +
        (crowded 23).abstractions = 26 ∧
      (∃ r, substitute (var "y") "x" (crowded 23) = .ok r) ∧
      (crowded 24).abstractions = (crowded 23).abstractions + 1 ∧
      ∃ e, substitute (var "y") "x" (crowded 24) = .error e :=
  ⟨by decide, exists_substitute_eq_ok (by decide), rfl, ⟨_, by cbv⟩⟩

end BinaryLambda.Term
