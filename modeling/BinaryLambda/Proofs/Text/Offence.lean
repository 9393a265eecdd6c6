import BinaryLambda.Proofs.Outcome

set_option autoImplicit false

/-!
# Text: the first thing that cannot be right

A text is refused for one of two reasons.  It has a character that no text may have, and
the first of them is the one to point at (`FirstStray`, `Scans`).  Or its tokens can go on
to an accepted sequence up to some place and no further (`Begins`, `SticksAt`): that place
is the first token that cannot stand where it does, or the end if every token can.
-/

namespace BinaryLambda.Text

/-! ## Stray characters -/

/-- The first character that is not allowed is `c`, at this place. -/
def FirstStray (Allowed : Char → Prop) (cs : List Char) (place : Nat) (c : Char) : Prop :=
  ∃ front back, cs = front ++ c :: back ∧ front.length = place ∧ (∀ d ∈ front, Allowed d) ∧
    ¬ Allowed c

theorem FirstStray.lt_length {Allowed : Char → Prop} {cs : List Char} {place : Nat} {c : Char}
    (h : FirstStray Allowed cs place c) : place < cs.length := by
  obtain ⟨front, back, rfl, rfl, -, -⟩ := h
  rw [List.length_append, List.length_cons]
  omega

section

variable {β γ : Type} {Allowed : Char → Prop}

/-- Going through characters, the first of which is at the place `start`, succeeds if all are
allowed, and stops at the first that is not. -/
def Scans (Allowed : Char → Prop) (start : Nat) (cs : List Char) :
    Except (Nat × Char) β → Prop
  | .ok _ => ∀ c ∈ cs, Allowed c
  | .error e => ∃ place, e.1 = start + place ∧ FirstStray Allowed cs place e.2

theorem Scans.map {start : Nat} {cs : List Char} {outcome : Except (Nat × Char) β}
    (h : Scans Allowed start cs outcome) (f : β → γ) : Scans Allowed start cs (outcome.map f) := by
  cases outcome with
  | ok b => exact h
  | error e => exact h

/-- Allowed characters in front are passed. -/
theorem Scans.append {start : Nat} {front cs : List Char} {outcome : Except (Nat × Char) β}
    (hfront : ∀ c ∈ front, Allowed c) (h : Scans Allowed (start + front.length) cs outcome) :
    Scans Allowed start (front ++ cs) outcome := by
  cases outcome with
  | ok b => exact List.forall_mem_append.mpr ⟨hfront, h⟩
  | error e =>
      obtain ⟨place, hplace, before, back, rfl, hlength, hbefore, hc⟩ := h
      refine ⟨front.length + place, by omega, front ++ before, back, ?_, ?_, ?_, hc⟩
      · rw [List.append_assoc]
      · rw [List.length_append, hlength]
      · exact List.forall_mem_append.mpr ⟨hfront, hbefore⟩

theorem Scans.cons {start : Nat} {c : Char} {cs : List Char} {outcome : Except (Nat × Char) β}
    (hc : Allowed c) (h : Scans Allowed (start + 1) cs outcome) :
    Scans Allowed start (c :: cs) outcome :=
  Scans.append (List.forall_mem_singleton.mpr hc) h

theorem scans_stray {start : Nat} {c : Char} (hc : ¬ Allowed c) (cs : List Char) :
    Scans Allowed start (c :: cs) (.error (start, c) : Except (Nat × Char) β) :=
  ⟨0, rfl, [], cs, rfl, rfl, List.forall_mem_nil _, hc⟩

/-- From the front of a text on, places are counted from its beginning. -/
theorem Scans.firstStray {cs : List Char} {outcome : Except (Nat × Char) β}
    (h : Scans Allowed 0 cs outcome) {e : Nat × Char} (he : outcome = .error e) :
    FirstStray Allowed cs e.1 e.2 := by
  subst he
  obtain ⟨place, hplace, hstray⟩ := h
  rw [hplace, Nat.zero_add]
  exact hstray

/-- It stops exactly if some character is not allowed. -/
theorem Scans.exists_error_iff {start : Nat} {cs : List Char} {outcome : Except (Nat × Char) β}
    (h : Scans Allowed start cs outcome) :
    (∃ e, outcome = .error e) ↔ ∃ c ∈ cs, ¬ Allowed c := by
  cases outcome with
  | ok b =>
      apply iff_of_false
      · rintro ⟨e, he⟩
        cases he
      · rintro ⟨c, hc, hnot⟩
        exact hnot (h c hc)
  | error e =>
      obtain ⟨place, -, front, back, rfl, -, -, hnot⟩ := h
      exact iff_of_true ⟨e, rfl⟩ ⟨e.2, List.mem_append_right _ (.head _), hnot⟩

/-- It stops exactly then, however the failure is reported. -/
theorem Scans.exists_mapError_iff {start : Nat} {cs : List Char}
    {outcome : Except (Nat × Char) β} (h : Scans Allowed start cs outcome) (f : Nat × Char → γ) :
    (∃ x, outcome.mapError f = .error x) ↔ ∃ c ∈ cs, ¬ Allowed c := by
  rw [← h.exists_error_iff]
  constructor
  · rintro ⟨x, hx⟩
    obtain ⟨e, he, -⟩ := mapError_eq_error_iff.mp hx
    exact ⟨e, he⟩
  · rintro ⟨e, he⟩
    exact ⟨f e, mapError_eq_error_iff.mpr ⟨e, he, rfl⟩⟩

end

/-! ## Sequences that go on -/

section

variable {α : Type} {Accepted : List α → Prop}

/-- An accepted sequence begins with these items. -/
def Begins (Accepted : List α → Prop) (front : List α) : Prop := ∃ more, Accepted (front ++ more)

theorem Begins.of_append {front more : List α} (h : Begins Accepted (front ++ more)) :
    Begins Accepted front := by
  obtain ⟨rest, hrest⟩ := h
  rw [List.append_assoc] at hrest
  exact ⟨more ++ rest, hrest⟩

/-- The items up to the place begin an accepted sequence.  If the place is not the end of the
items, they do not any more together with the item there. -/
structure SticksAt (Accepted : List α → Prop) (items : List α) (place : Nat) : Prop where
  le : place ≤ items.length
  begins : Begins Accepted (items.take place)
  stuck : place = items.length ∨ ¬ Begins Accepted (items.take (place + 1))

theorem Begins.of_prefix {front items : List α} (h : front <+: items)
    (hitems : Begins Accepted items) : Begins Accepted front := by
  obtain ⟨more, rfl⟩ := h
  exact hitems.of_append

/-- Items that go on stick at their end only. -/
theorem SticksAt.eq_length {items : List α} {place : Nat} (h : SticksAt Accepted items place)
    (hitems : Begins Accepted items) : place = items.length :=
  h.stuck.resolve_right fun hstuck => hstuck (hitems.of_prefix (List.take_prefix _ _))

/-- Items that do not go on stick before their end. -/
theorem SticksAt.lt_length {items : List α} {place : Nat} (h : SticksAt Accepted items place)
    (hitems : ¬ Begins Accepted items) : place < items.length := by
  apply Nat.lt_of_le_of_ne h.le
  rintro rfl
  apply hitems
  rw [← List.take_length (l := items)]
  exact h.begins

/-- Items that do not go on do so up to the place and no further. -/
theorem SticksAt.begins_take_iff {items : List α} {place : Nat}
    (h : SticksAt Accepted items place) (hitems : ¬ Begins Accepted items) (n : Nat) :
    Begins Accepted (items.take n) ↔ n ≤ place := by
  constructor
  · intro hbegins
    by_contra hlt
    have hstuck : ¬ Begins Accepted (items.take (place + 1)) :=
      h.stuck.resolve_left (Nat.ne_of_lt (h.lt_length hitems))
    have hprefix : items.take (place + 1) <+: items.take n :=
      List.take_prefix_take_left (by omega)
    exact hstuck (hbegins.of_prefix hprefix)
  · intro hle
    exact h.begins.of_prefix (List.take_prefix_take_left hle)

/-- The first item that is left tells where the items stick. -/
theorem sticksAt_of_append {front rest : List α} (hbegins : Begins Accepted front)
    (hstuck : ∀ item ∈ rest.head?, ¬ Begins Accepted (front ++ [item])) :
    SticksAt Accepted (front ++ rest) front.length where
  le := by
    rw [List.length_append]
    exact Nat.le_add_right _ _
  begins := by
    rw [List.take_left]
    exact hbegins
  stuck := by
    cases rest with
    | nil =>
        left
        rw [List.append_nil]
    | cons item rest =>
        right
        rw [List.take_length_add_append]
        exact hstuck item rfl

end

end BinaryLambda.Text
