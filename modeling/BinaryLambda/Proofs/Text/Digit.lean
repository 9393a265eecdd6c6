import BinaryLambda.Text.Blank
import BinaryLambda.Text.Digit
import Mathlib.Data.List.Basic

set_option autoImplicit false

/-!
# Text: digits and what they write

No digit of any script is white space (`isBlank_of_isDigit`), and the decimal digits
of a number are read as that number (`digitsValue_toDigits`).
-/

namespace BinaryLambda.Text

/-- A digit lies among the ten characters from the zero of its script on. -/
theorem exists_zero_of_isDigit {c : Char} (h : isDigit c = true) :
    ∃ z ∈ zeros, z ≤ c.toNat ∧ c.toNat ≤ z + 9 := by
  obtain ⟨v, hv⟩ := Option.isSome_iff_exists.mp h
  rw [digitValue?, Option.map_eq_some_iff] at hv
  obtain ⟨z, hz, _⟩ := hv
  have hrange := List.find?_some hz
  rw [Bool.and_eq_true, decide_eq_true_eq, decide_eq_true_eq] at hrange
  exact ⟨z, List.mem_of_find?_eq_some hz, hrange⟩

/-- White space is no digit: every script has its digits on one side of each blank. -/
theorem isBlank_of_isDigit {c : Char} (h : isDigit c = true) : isBlank c = false := by
  obtain ⟨z, hz, hlow, hhigh⟩ := exists_zero_of_isDigit h
  have hclear : ∀ z ∈ zeros,
      32 < z ∧ (z + 9 < 0x85 ∨ 0x85 < z) ∧ (z + 9 < 0xA0 ∨ 0xA0 < z) ∧
        (z + 9 < 0x1680 ∨ 0x1680 < z) ∧ (z + 9 < 0x2000 ∨ 0x205F < z) ∧
        (z + 9 < 0x3000 ∨ 0x3000 < z) := by decide
  have := hclear z hz
  simp only [isBlank, Bool.or_eq_false_iff, Bool.and_eq_false_iff, decide_eq_false_iff_not,
    beq_eq_false_iff_ne]
  omega

/-! ## ASCII digits -/

theorem digitValue?_of_ascii {c : Char} (h : c.isDigit = true) :
    digitValue? c = some (c.toNat - 48) := by
  have hlow : 48 ≤ c.toNat := (Char.isDigit_iff_toNat.mp h).1
  have hhigh : c.toNat ≤ 57 := (Char.isDigit_iff_toNat.mp h).2
  have hfind : zeros.find? (fun z => z ≤ c.toNat && c.toNat ≤ z + 9) = some 48 :=
    List.find?_cons_of_pos (by simp [hlow, hhigh])
  rw [digitValue?, hfind, Option.map_some]

theorem isDigit_of_ascii {c : Char} (h : c.isDigit = true) : isDigit c = true := by
  rw [isDigit, digitValue?_of_ascii h, Option.isSome_some]

theorem isDigit_of_mem_toDigits {c : Char} {n : Nat} (h : c ∈ Nat.toDigits 10 n) :
    isDigit c = true :=
  isDigit_of_ascii (Nat.isDigit_of_mem_toDigits (by decide) (by decide) h)

/-- The decimal digits of a number are read as that number. -/
theorem digitsValue_toDigits (n : Nat) : digitsValue (Nat.toDigits 10 n) = n := by
  have hvalue : digitsValue (Nat.toDigits 10 n) = Nat.ofDigitChars 10 (Nat.toDigits 10 n) 0 := by
    apply List.foldl_ext
    intro m c hc
    have hdigit : c.isDigit = true := Nat.isDigit_of_mem_toDigits (by decide) (by decide) hc
    rw [digitValue?_of_ascii hdigit, Option.getD_some]
    rfl
  rw [hvalue, Nat.ofDigitChars_toDigits (by decide) (by decide)]

end BinaryLambda.Text
