import BinaryLambda.IndexTerm.Code
import BinaryLambda.Proofs.Outcome

set_option autoImplicit false

/-!
# Index terms: reading a code back

Reading the front of a code and any rest gives the term and that rest
(`readFront_codeOnto`), and nothing else is read as a term
(`eq_codeOnto_of_readFront`).  So no two index terms have the same code, no two
have the same bits (`bits_injective`), and a text is read as a term exactly if it
is the bits of that term (`ofBits_eq_ok_iff`).
-/

namespace BinaryLambda.IndexTerm

theorem readOnes_replicate (n : Nat) (rest : List Bool) :
    readOnes (List.replicate n true ++ false :: rest) = some (n, rest) := by
  induction n with
  | zero => rfl
  | succ n ih =>
      rw [List.replicate_succ, List.cons_append, readOnes, ih]
      rfl

/-- The code of a term is read back, whatever follows it. -/
theorem readFront_codeOnto (t : IndexTerm) (rest : List Bool) :
    ∃ r, readFront (t.codeOnto rest) = .ok (t, r) ∧ r.1 = rest := by
  induction t generalizing rest with
  | bound n =>
      rw [codeOnto, List.replicate_succ, List.cons_append, readFront]
      split
      · rename_i hnone
        rw [readOnes_replicate] at hnone
        cases hnone
      · rename_i hsome
        rw [readOnes_replicate] at hsome
        cases hsome
        exact ⟨_, rfl, rfl⟩
  | lam b ih =>
      obtain ⟨⟨rest', _⟩, hb, hrest⟩ := ih rest
      rw [codeOnto, readFront, hb]
      exact ⟨_, rfl, hrest⟩
  | app f a ihf iha =>
      obtain ⟨⟨rest', _⟩, ha, hrest⟩ := iha rest
      obtain ⟨⟨sides, _⟩, hf, hsides⟩ := ihf (a.codeOnto rest)
      dsimp only at hsides
      subst hsides
      rw [codeOnto, readFront, hf]
      dsimp only
      rw [ha]
      exact ⟨_, rfl, hrest⟩

/-- Reading a code gives its term. -/
theorem ofCode_code (t : IndexTerm) : ofCode t.code = .ok t := by
  obtain ⟨⟨rest, _⟩, ht, hrest⟩ := readFront_codeOnto t []
  dsimp only at hrest
  subst hrest
  rw [ofCode, code, ht]
  rfl

/-- No two terms have the same code. -/
theorem code_injective : Function.Injective code := by
  intro t u h
  have ht : ofCode t.code = .ok u := by rw [h, ofCode_code]
  rw [ofCode_code] at ht
  exact Except.ok.inj ht

theorem bitChar_injective : Function.Injective bitChar := by
  intro b c h
  cases b <;> cases c <;> simp_all [bitChar]

/-- The text of a sequence of bits. -/
def spell (bs : List Bool) : String := String.ofList (bs.map bitChar)

theorem toList_spell (bs : List Bool) : (spell bs).toList = bs.map bitChar :=
  String.toList_ofList

theorem spell_injective : Function.Injective spell := by
  intro bs cs h
  have hchars : bs.map bitChar = cs.map bitChar := String.ofList_injective h
  exact (List.map_inj_right fun _ _ hb => bitChar_injective hb).mp hchars

/-- No two terms have the same bits. -/
theorem bits_injective : Function.Injective bits :=
  fun _ _ h => code_injective (spell_injective h)

/-! ## What is accepted -/

theorem eq_replicate_of_readOnes {bs rest : List Bool} {n : Nat}
    (h : readOnes bs = some (n, rest)) : bs = List.replicate n true ++ false :: rest := by
  fun_induction readOnes bs generalizing n with
  | case1 => cases h
  | case2 bs =>
      cases h
      rfl
  | case3 bs ih =>
      obtain ⟨⟨m, r⟩, hr, heq⟩ := Option.map_eq_some_iff.mp h
      cases heq
      rw [ih hr, List.replicate_succ, List.cons_append]

/-- What is read as a term is its code, and the rest follows it. -/
theorem eq_codeOnto_of_readFront {bs : List Bool} {t : IndexTerm}
    {r : { rest : List Bool // rest.length < bs.length }} (h : readFront bs = .ok (t, r)) :
    bs = t.codeOnto r.1 := by
  fun_induction readFront bs generalizing t with
  | case1 => cases h
  | case2 => cases h
  | case3 bs n rest hones =>
      cases h
      rw [codeOnto, List.replicate_succ, List.cons_append, ← eq_replicate_of_readOnes hones]
  | case4 => cases h
  | case5 => cases h
  | case6 body b rest hlt hb ih =>
      cases h
      rw [codeOnto, ← ih hb]
  | case7 => cases h
  | case8 => cases h
  | case9 sides f rest hlt hf a rest' hlt' ha ihf iha =>
      cases h
      rw [codeOnto, ← iha ha, ← ihf hf]

/-- A sequence of bits is read as a term exactly if it is the term's code. -/
theorem ofCode_eq_ok_iff {bs : List Bool} {t : IndexTerm} : ofCode bs = .ok t ↔ bs = t.code := by
  constructor
  · intro h
    rw [ofCode] at h
    split at h
    · cases h
    · rename_i u rest hlt hu
      split at h
      · rename_i hempty
        have hbs : bs = u.codeOnto rest := eq_codeOnto_of_readFront hu
        cases h
        rw [hbs, List.isEmpty_iff.mp hempty, code]
      · cases h
  · rintro rfl
    exact ofCode_code t

theorem bit?_eq_some_iff {c : Char} {b : Bool} : bit? c = some b ↔ c = bitChar b := by
  cases b <;> grind [bit?, bitChar]

/-- Characters are read as bits exactly if they are their characters. -/
theorem readBits_eq_ok_iff {position : Nat} {cs : List Char} {bs : List Bool} :
    readBits position cs = .ok bs ↔ cs = bs.map bitChar := by
  induction cs generalizing position bs with
  | nil => cases bs <;> simp [readBits]
  | cons c cs ih =>
      rw [readBits]
      cases hc : bit? c with
      | none =>
          have hne : ∀ b, c ≠ bitChar b := by
            rintro b rfl
            rw [bit?_eq_some_iff.mpr rfl] at hc
            cases hc
          cases bs <;> simp [hne]
      | some b =>
          obtain rfl : c = bitChar b := bit?_eq_some_iff.mp hc
          rw [map_eq_ok_iff]
          cases bs with
          | nil => simp
          | cons d bs => simp [ih, bitChar_injective.eq_iff, and_comm]

theorem code_ne_nil (t : IndexTerm) : t.code ≠ [] := by
  cases t <;> simp

theorem toList_bits (t : IndexTerm) : t.bits.toList = t.code.map bitChar :=
  toList_spell t.code

/-- The bits of a term are read as the term. -/
theorem ofBits_bits (t : IndexTerm) : ofBits t.bits = .ok t := by
  have hread : readBits 0 t.bits.toList = .ok t.code := readBits_eq_ok_iff.mpr (toList_bits t)
  have hne : t.bits.isEmpty = false := by
    rw [Bool.eq_false_iff, ne_eq, String.isEmpty_iff, ← String.toList_eq_nil_iff, toList_bits,
      List.map_eq_nil_iff]
    exact code_ne_nil t
  rw [ofBits, hne, hread]
  exact mapError_eq_ok_iff.mpr (ofCode_code t)

/-- A text that is read as a term is its bits. -/
theorem eq_bits_of_ofBits {s : String} {t : IndexTerm} (h : ofBits s = .ok t) : s = t.bits := by
  rw [ofBits] at h
  split at h
  · cases h
  · split at h
    · cases h
    · rename_i bs hread
      have hbs : bs = t.code := ofCode_eq_ok_iff.mp (mapError_eq_ok_iff.mp h)
      rw [bits, ← hbs, ← readBits_eq_ok_iff.mp hread, String.ofList_toList]

/-- **Every index term has one text of bits.**  A text is read as a term exactly if it
is the bits of that term.  So the bits of a term are read as the term, whatever is
read as a term is canonical, and no other text is accepted for it. -/
theorem ofBits_eq_ok_iff {s : String} {t : IndexTerm} : ofBits s = .ok t ↔ s = t.bits := by
  constructor
  · exact eq_bits_of_ofBits
  · rintro rfl
    exact ofBits_bits t

end BinaryLambda.IndexTerm
