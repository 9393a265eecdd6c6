import BinaryLambda.Text.Placed
import Mathlib.Tactic.Common

set_option autoImplicit false

/-!
# Text: cutting a text

A lexer cuts a text into tokens, each with the place where it starts, or it stops at the
place of a character that begins no token.  `CutBefore` bounds these places, so the place
that a parser names is in the text or at its end (`place_le`).  A token that is as long as
it can be is a run of characters of one kind, before a character of another
(`takeWhile_run`, `dropWhile_run`).
-/

namespace BinaryLambda.Text

variable {α : Type}

/-! ## Runs -/

section

variable {p : Char → Bool} {run rest : List Char}

/-- Characters of different kinds are different. -/
theorem ne_of_kind {c d : Char} (hc : p c = true) (hd : p d = false) : c ≠ d := by
  rintro rfl
  rw [hc] at hd
  cases hd

/-- All of a run is taken, where it ends. -/
theorem takeWhile_run (hrun : ∀ c ∈ run, p c = true) (hrest : ∀ c ∈ rest.head?, p c = false) :
    (run ++ rest).takeWhile p = run := by
  rw [List.takeWhile_append_of_pos hrun]
  cases rest with
  | nil => rw [List.takeWhile_nil, List.append_nil]
  | cons c rest => rw [List.takeWhile_cons_of_neg (by simp [hrest c rfl]), List.append_nil]

/-- What follows a run is left, where it ends. -/
theorem dropWhile_run (hrun : ∀ c ∈ run, p c = true) (hrest : ∀ c ∈ rest.head?, p c = false) :
    (run ++ rest).dropWhile p = rest := by
  rw [List.dropWhile_append_of_pos hrun]
  cases rest with
  | nil => rfl
  | cons c rest => exact List.dropWhile_cons_of_neg (by simp [hrest c rfl])

/-- What is left after all of a kind begins with a character of another. -/
theorem head?_dropWhile (p : Char → Bool) (cs : List Char) :
    ∀ c ∈ (cs.dropWhile p).head?, p c = false := by
  intro c hc
  have hnot := List.head?_dropWhile_not p cs
  rw [Option.mem_def.mp hc] at hnot
  simpa using hnot

end

/-! ## Places -/

/-- Whether the cutting succeeds or not, the places it names lie before `stop`. -/
def CutBefore (stop : Nat) : Except (Nat × Char) (List (Placed α)) → Prop
  | .ok placed => ∀ p ∈ placed, p.start < stop
  | .error e => e.1 < stop

theorem CutBefore.mono {stop stop' : Nat} {cut : Except (Nat × Char) (List (Placed α))}
    (h : CutBefore stop cut) (hle : stop ≤ stop') : CutBefore stop' cut := by
  cases cut with
  | error e => exact Nat.lt_of_lt_of_le h hle
  | ok placed => exact fun p hp => Nat.lt_of_lt_of_le (h p hp) hle

/-- A token in front is before `stop` if it starts there. -/
theorem CutBefore.cons {start stop : Nat} {cut : Except (Nat × Char) (List (Placed α))}
    (h : CutBefore stop cut) (token : α) (hstart : start < stop) :
    CutBefore stop (cut.map (⟨token, start⟩ :: ·)) := by
  cases cut with
  | error e => exact h
  | ok placed => exact List.forall_mem_cons.mpr ⟨hstart, h⟩

/-- Where all tokens start in the text, every place is in it or at its end. -/
theorem Placed.place_le {tokens : List (Placed α)} {length : Nat}
    (h : ∀ t ∈ tokens, t.start < length) (left : Nat) : place tokens length left ≤ length := by
  unfold place
  split
  · rename_i t ht
    exact Nat.le_of_lt (h t (List.mem_of_getElem? ht))
  · exact Nat.le_refl length

/-- With no token left, the place is the end of the text. -/
theorem Placed.place_zero (tokens : List (Placed α)) (length : Nat) :
    place tokens length 0 = length := by
  rw [place, Nat.sub_zero, List.getElem?_eq_none (Nat.le_refl _)]

/-- With tokens left, the place is where the first of them starts. -/
theorem Placed.place_eq_start {tokens : List (Placed α)} {left : Nat} {p : Placed α}
    (h : tokens[tokens.length - left]? = some p) (length : Nat) :
    place tokens length left = p.start := by
  rw [place, h]

/-- Where every token is in the text as a whole, the place of a failure is in the text or at
its end, and the token that is left there first ends in the text. -/
theorem Placed.place_fits {tokens : List (Placed α)} {length : Nat} (width : α → Nat)
    (h : ∀ p ∈ tokens, p.start + width p.token ≤ length) {front rest : List α}
    (hrest : tokens.map (·.token) = front ++ rest) :
    place tokens length rest.length ≤ length ∧
      ∀ token ∈ rest.head?, place tokens length rest.length + width token ≤ length := by
  cases rest with
  | nil => exact ⟨Nat.le_of_eq (place_zero tokens length), nofun⟩
  | cons token rest =>
      have hlength : tokens.length = front.length + (token :: rest).length := by
        rw [← List.length_append, ← hrest, List.length_map]
      have htoken : (tokens.map (·.token))[front.length]? = some token := by
        rw [hrest, List.getElem?_append_right (Nat.le_refl _), Nat.sub_self]
        rfl
      rw [List.getElem?_map, Option.map_eq_some_iff] at htoken
      obtain ⟨p, hp, rfl⟩ := htoken
      have hfits := h p (List.mem_of_getElem? hp)
      have hplace : place tokens length (p.token :: rest).length = p.start := by
        apply place_eq_start
        rw [hlength, Nat.add_sub_cancel, hp]
      rw [hplace]
      refine ⟨by omega, ?_⟩
      rintro _ ⟨⟩
      exact hfits

end BinaryLambda.Text
