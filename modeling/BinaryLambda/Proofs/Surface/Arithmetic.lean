import BinaryLambda.Proofs.Surface.Cutting
import BinaryLambda.Proofs.Surface.Grammar
import BinaryLambda.Proofs.Term.Power
import BinaryLambda.Proofs.Term.Predecessor
import BinaryLambda.Proofs.Text.Digit

set_option autoImplicit false

/-!
# Surface syntax: arithmetic

The name of a combinator and numerals after it are read as the application of its term to
their Church numerals (`ofText_call`).  So the runs of arithmetic are started by texts, and
they end in the number, whatever the numerals are (`call_computes`).  The power is the one
operation for which this holds of positive numbers only (`call_power_computes`).
-/

namespace BinaryLambda.Surface

open Term

/-! ## Numerals -/

/-- A numeral as it is written: decimal digits, perhaps with zeros in front. -/
structure Numeral where
  digits : List Char
  ne_nil : digits ≠ []
  isNumeralDigit_of_mem : ∀ c ∈ digits, isNumeralDigit c = true

namespace Numeral

/-- The number that is written. -/
def value (n : Numeral) : Nat := Text.digitsValue n.digits

/-- The text of a numeral. -/
def text (n : Numeral) : String := String.ofList n.digits

theorem isNumeralDigit_of_isDigit {c : Char} (h : c.isDigit = true) : isNumeralDigit c = true := by
  obtain ⟨hlow, hhigh⟩ := Char.isDigit_iff_toNat.mp h
  rw [isNumeralDigit, Bool.and_eq_true, decide_eq_true_eq, decide_eq_true_eq]
  exact ⟨hlow, hhigh⟩

/-- The numeral of a number, without zeros in front. -/
def ofNat (n : Nat) : Numeral where
  digits := Nat.toDigits 10 n
  ne_nil := Nat.toDigits_ne_nil
  isNumeralDigit_of_mem _ hc :=
    isNumeralDigit_of_isDigit (Nat.isDigit_of_mem_toDigits (by decide) (by decide) hc)

theorem value_ofNat (n : Nat) : (ofNat n).value = n := Text.digitsValue_toDigits n

theorem text_ofNat (n : Nat) : (ofNat n).text = toString n :=
  Nat.repr_eq_ofList_toDigits.symm

end Numeral

/-! ## Calls -/

/-- A name and the numerals that it is applied to, with spaces between them. -/
def call (name : String) (arguments : List Numeral) : String :=
  " ".intercalate (name :: arguments.map Numeral.text)

/-- The characters of the numerals, each after a space. -/
def spaced (arguments : List Numeral) : List Char := arguments.flatMap (' ' :: ·.digits)

theorem intercalate_space (cs : List Char) (arguments : List Numeral) :
    [' '].intercalate (cs :: arguments.map (·.digits)) = cs ++ spaced arguments := by
  induction arguments generalizing cs with
  | nil => rw [List.map_nil, List.intercalate_singleton, spaced, List.flatMap_nil, List.append_nil]
  | cons n arguments ih =>
      rw [List.map_cons, List.intercalate_cons_cons, ih, List.append_assoc]
      rfl

theorem toList_call (name : String) (arguments : List Numeral) :
    (call name arguments).toList = name.toList ++ spaced arguments := by
  have htexts : (arguments.map Numeral.text).map String.toList = arguments.map (·.digits) := by
    simp [Numeral.text, Function.comp_def]
  rw [call, String.toList_intercalate, List.map_cons, htexts]
  exact intercalate_space name.toList arguments

/-- The numerals are tokens apart. -/
theorem spaced_eq_apart (arguments : List Numeral) :
    spaced arguments = apart (arguments.map (.numeral ·.digits)) := by
  rw [spaced, apart, List.flatMap_map]
  rfl

/-- The numerals are cut into one token each. -/
theorem exists_cutFrom_spaced (arguments : List Numeral) (start : Nat) :
    ∃ placed, cutFrom start (spaced arguments) = .ok placed ∧
      placed.map (·.token) = arguments.map (.numeral ·.digits) := by
  rw [spaced_eq_apart]
  refine exists_cutFrom_apart (List.forall_mem_map.mpr fun n _ => ?_) start
  exact ⟨n.ne_nil, n.isNumeralDigit_of_mem⟩

/-- Numerals are read as arguments of what is in front of them. -/
theorem readsTo_numerals (t : Term) (arguments : List Numeral) :
    ReadsTo (some t) (arguments.map (.numeral ·.digits))
      ((arguments.map (church ·.value)).foldl app t) [] := by
  induction arguments generalizing t with
  | nil => exact .finish t nofun
  | cons n arguments ih => exact .numeral (ih (app t (church n.value)))

theorem isLetter_of_mem_name {c : Combinator} {d : Char} (h : d ∈ c.name.toList) :
    isLetter d = true := by
  have hname : c.name.toList.all isLetter = true := by cases c <;> decide
  exact List.all_eq_true.mp hname d h

/-- A call of a combinator is read as the application of its term to the numerals. -/
theorem ofText_call (c : Combinator) (arguments : List Numeral) :
    ofText (call c.name arguments) = .ok ((arguments.map (church ·.value)).foldl app c.term) := by
  have hne : c.name.toList ≠ [] := by cases c <;> decide
  have hrest : ∀ d ∈ (spaced arguments).head?, isLetter d = false := by
    intro d hd
    rw [spaced_eq_apart] at hd
    rw [head?_apart _ d hd]
    rfl
  obtain ⟨placed, hcut, htokens⟩ := exists_cutFrom_spaced arguments (0 + c.name.toList.length)
  have hlex : lex (call c.name arguments) = .ok (⟨.word c.name.toList, 0⟩ :: placed) := by
    rw [lex, toList_call,
      cutFrom_run cutFrom_of_isLetter hne (fun _ => isLetter_of_mem_name) hrest, hcut]
    rfl
  have hread : ReadsTo none (.word c.name.toList :: placed.map (·.token))
      ((arguments.map (church ·.value)).foldl app c.term) [] := by
    rw [htokens]
    exact .word (wordTerm?_name c) (readsTo_numerals c.term arguments)
  rw [ofText, hlex]
  exact mapError_eq_ok_iff.mpr hread.ofTokens

/-! ## What calls compute -/

/-- The text is read, no run of its term is stopped, and a run whose cap is high enough
leaves `result`. -/
def Computes (s : String) (result : Term) : Prop :=
  ∃ t, ofText s = .ok t ∧ (∃ least, ∀ cap, least ≤ cap → t.interpret cap = .ok result) ∧
    ∀ cap, ∃ r, t.interpret cap = .ok r

theorem computes_of_reaches {s : String} {t result : Term} (hs : ofText s = .ok t)
    (h : Reaches t result) (hresult : result.hasRedex = false) : Computes s result :=
  ⟨t, hs, h.interpret hresult⟩

/-- **Arithmetic computes.**  Every number has a numeral.  The successor, the sum, the
product, the predecessor and the difference of numerals leave the Church numeral of the
number, where nothing is below zero, and the test for zero leaves the term of `true` or of
`false`; no run is stopped. -/
theorem call_computes (m n : Numeral) :
    (∀ k : Nat, (Numeral.ofNat k).value = k ∧ (Numeral.ofNat k).text = toString k) ∧
      Computes (call "succ" [n]) (church (n.value + 1)) ∧
      Computes (call "add" [m, n]) (church (m.value + n.value)) ∧
      Computes (call "mult" [m, n]) (church (m.value * n.value)) ∧
      Computes (call "pred" [n]) (church (n.value - 1)) ∧
      Computes (call "sub" [m, n]) (church (m.value - n.value)) ∧
      ∃ answer, ofText (if n.value = 0 then "true" else "false") = .ok answer ∧
        Computes (call "iszero" [n]) answer := by
  have hnumeral := hasRedex_church
  refine ⟨fun k => ⟨Numeral.value_ofNat k, Numeral.text_ofNat k⟩, ?_, ?_, ?_, ?_, ?_, ?_⟩
  · exact computes_of_reaches (ofText_call .successor [n]) (reaches_successor _) (hnumeral _)
  · exact computes_of_reaches (ofText_call .sum [m, n]) (reaches_sum _ _) (hnumeral _)
  · exact computes_of_reaches (ofText_call .product [m, n]) (reaches_product _ _) (hnumeral _)
  · exact computes_of_reaches (ofText_call .predecessor [n]) (reaches_predecessor _) (hnumeral _)
  · exact computes_of_reaches (ofText_call .difference [m, n]) (reaches_difference _ _) (hnumeral _)
  · have hreach := reaches_zeroTest n.value
    have hcall := ofText_call .zeroTest [n]
    split_ifs at hreach ⊢
    · exact ⟨Combinator.truth.term, ofText_call .truth [], computes_of_reaches hcall hreach rfl⟩
    · exact ⟨Combinator.falsity.term, ofText_call .falsity [], computes_of_reaches hcall hreach rfl⟩

/-- **Powers compute, except of zero and to zero.**  A power of numerals computes its normal
form and no run is stopped.  For a positive base and a positive exponent this is a numeral of
the power; if one of them is zero it is not recognized as a numeral. -/
theorem call_power_computes (m n : Numeral) :
    (∀ k : Nat, (Numeral.ofNat k).value = k ∧ (Numeral.ofNat k).text = toString k) ∧
      ∃ result, Computes (call "pow" [m, n]) result ∧ result.hasRedex = false ∧
        result.churchValue? =
          if m.value = 0 ∨ n.value = 0 then none else some (m.value ^ n.value) := by
  refine ⟨fun k => ⟨Numeral.value_ofNat k, Numeral.text_ofNat k⟩, powerNormal m.value n.value,
    ?_, hasRedex_powerNormal _ _, churchValue?_powerNormal _ _⟩
  exact computes_of_reaches (ofText_call .power [m, n]) (reaches_power _ _)
    (hasRedex_powerNormal _ _)

/-- Two to the power of zero is not one: whatever the cap is that suffices, the identity is
left, which is no numeral. -/
theorem power_without_exponent :
    ∃ t, ofText "pow 2 0" = .ok t ∧
      ¬ ∃ least, ∀ cap, least ≤ cap →
        ∃ result, t.interpret cap = .ok result ∧ result.churchValue? = some (2 ^ 0) := by
  obtain ⟨t, ht, ⟨least, hrun⟩, -⟩ := computes_of_reaches
    (ofText_call .power [.ofNat 2, .ofNat 0]) (reaches_power _ _) (hasRedex_powerNormal _ _)
  refine ⟨t, ht, ?_⟩
  rintro ⟨other, hother⟩
  obtain ⟨result, hresult, hvalue⟩ := hother _ (Nat.le_max_right least other)
  rw [hrun _ (Nat.le_max_left least other)] at hresult
  cases hresult
  cases hvalue

end BinaryLambda.Surface
