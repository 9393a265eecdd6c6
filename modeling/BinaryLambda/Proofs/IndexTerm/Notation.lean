import BinaryLambda.IndexTerm.Notation
import BinaryLambda.Proofs.Outcome
import BinaryLambda.Proofs.Text.Digit
import BinaryLambda.Proofs.Text.Placed

set_option autoImplicit false

/-!
# Index terms: reading the written form back

`Spells` is the grammar of token sequences.  The written form of an index term is
cut into tokens that spell it (`cutFrom_charsOnto`), and tokens that spell a term
are read as that term (`Spells.readMarks`), so the written form is read back
(`ofText_text`).
-/

namespace BinaryLambda.IndexTerm

/-! ## The grammar -/

/-- The tokens that spell an index term: a numeral counts from 1 and may have leading
zeros and digits of any script. -/
inductive Spells : List Mark → IndexTerm → Prop where
  | numeral {digits : List Char} {n : Nat} : Text.digitsValue digits = n + 1 →
      Spells [.numeral digits] (bound n)
  | lam {ms : List Mark} {b : IndexTerm} : Spells ms b → Spells (.lambda :: ms) (lam b)
  | app {fs as : List Mark} {f a : IndexTerm} : Spells fs f → Spells as a →
      Spells (.leftParen :: (fs ++ as ++ [.rightParen])) (app f a)

/-- Tokens that spell a term are read as it, whatever follows them. -/
theorem Spells.readMarks {ms : List Mark} {t : IndexTerm} (h : Spells ms t) (rest : List Mark) :
    ∃ r, IndexTerm.readMarks (ms ++ rest) = .ok (t, r) ∧ r.1 = rest := by
  induction h generalizing rest with
  | @numeral digits n hvalue =>
      rw [List.singleton_append, IndexTerm.readMarks]
      split
      · rename_i hzero
        rw [hvalue] at hzero
        cases hzero
      · rename_i m hm
        rw [hvalue] at hm
        cases hm
        exact ⟨_, rfl, rfl⟩
  | lam _ ih =>
      obtain ⟨⟨rest', _⟩, hb, hrest⟩ := ih rest
      rw [List.cons_append, IndexTerm.readMarks, hb]
      exact ⟨_, rfl, hrest⟩
  | @app fs as f a _ _ ihf iha =>
      obtain ⟨⟨closing, _⟩, ha, hclosing⟩ := iha (.rightParen :: rest)
      obtain ⟨⟨sides, _⟩, hf, hsides⟩ := ihf (as ++ .rightParen :: rest)
      dsimp only at hclosing hsides
      subst hclosing hsides
      have hassoc : .leftParen :: (fs ++ as ++ [.rightParen]) ++ rest =
          Mark.leftParen :: (fs ++ (as ++ .rightParen :: rest)) := by simp
      rw [hassoc, IndexTerm.readMarks, hf]
      dsimp only
      rw [ha]
      exact ⟨_, rfl, rfl⟩

theorem Spells.ofMarks {ms : List Mark} {t : IndexTerm} (h : Spells ms t) :
    IndexTerm.ofMarks ms = .ok t := by
  have hread := h.readMarks []
  rw [List.append_nil] at hread
  obtain ⟨⟨rest, _⟩, ht, hrest⟩ := hread
  dsimp only at hrest
  subst hrest
  rw [IndexTerm.ofMarks, ht]
  rfl

/-! ## Cutting -/

theorem cutFrom_lambda (start : Nat) (cs : List Char) :
    cutFrom start ('λ' :: '.' :: cs) = (cutFrom (start + 2) cs).map (⟨.lambda, start⟩ :: ·) := by
  rw [cutFrom]

/-- Without `λ` in front, the first character says what the token is. -/
theorem cutFrom_cons {c : Char} (hc : c ≠ 'λ') (start : Nat) (cs : List Char) :
    cutFrom start (c :: cs) =
      if c = '(' then (cutFrom (start + 1) cs).map (⟨.leftParen, start⟩ :: ·)
      else if c = ')' then (cutFrom (start + 1) cs).map (⟨.rightParen, start⟩ :: ·)
      else if Text.isBlank c then cutFrom (start + 1) cs
      else if Text.isDigit c then
        (cutFrom (start + (c :: cs.takeWhile Text.isDigit).length)
          (cs.dropWhile Text.isDigit)).map (⟨.numeral (c :: cs.takeWhile Text.isDigit), start⟩ :: ·)
      else .error (start, c) := by
  rw [cutFrom]
  intro _ h
  exact absurd h hc

theorem cutFrom_leftParen (start : Nat) (cs : List Char) :
    cutFrom start ('(' :: cs) = (cutFrom (start + 1) cs).map (⟨.leftParen, start⟩ :: ·) := by
  rw [cutFrom_cons (by decide), if_pos rfl]

theorem cutFrom_rightParen (start : Nat) (cs : List Char) :
    cutFrom start (')' :: cs) = (cutFrom (start + 1) cs).map (⟨.rightParen, start⟩ :: ·) := by
  rw [cutFrom_cons (by decide), if_neg (by decide), if_pos rfl]

theorem cutFrom_blank {c : Char} (hc : Text.isBlank c = true) (start : Nat) (cs : List Char) :
    cutFrom start (c :: cs) = cutFrom (start + 1) cs := by
  rw [cutFrom_cons (Text.ne_of_kind hc rfl), if_neg (Text.ne_of_kind hc rfl),
    if_neg (Text.ne_of_kind hc rfl), if_pos hc]

/-- The characters go on without a digit, so that a numeral before them ends there. -/
def EndsNumeral (cs : List Char) : Prop := ∀ c ∈ cs.head?, Text.isDigit c = false

/-- A run of digits that ends there is one numeral. -/
theorem cutFrom_digits {digits rest : List Char} (hne : digits ≠ [])
    (hdigits : ∀ c ∈ digits, Text.isDigit c = true) (hrest : EndsNumeral rest) (start : Nat) :
    cutFrom start (digits ++ rest) =
      (cutFrom (start + digits.length) rest).map (⟨.numeral digits, start⟩ :: ·) := by
  obtain ⟨c, ds, rfl⟩ := List.exists_cons_of_ne_nil hne
  obtain ⟨hc, hds⟩ := List.forall_mem_cons.mp hdigits
  rw [List.cons_append, cutFrom_cons (Text.ne_of_kind hc rfl), if_neg (Text.ne_of_kind hc rfl),
    if_neg (Text.ne_of_kind hc rfl), if_neg (by simp [Text.isBlank_of_isDigit hc]), if_pos hc,
    Text.takeWhile_run hds hrest, Text.dropWhile_run hds hrest]

/-- The written form of a term is cut into tokens that spell it, and the cutting goes on
after it. -/
theorem cutFrom_charsOnto (t : IndexTerm) {rest : List Char} (hrest : EndsNumeral rest)
    (start : Nat) :
    ∃ placed stop, Spells (placed.map (·.token)) t ∧
      ∀ more, cutFrom stop rest = .ok more →
        cutFrom start (t.charsOnto rest) = .ok (placed ++ more) := by
  induction t generalizing rest start with
  | bound n =>
      refine ⟨[⟨.numeral (Nat.toDigits 10 (n + 1)), start⟩],
        start + (Nat.toDigits 10 (n + 1)).length, .numeral (Text.digitsValue_toDigits (n + 1)), ?_⟩
      intro more hmore
      rw [charsOnto, cutFrom_digits Nat.toDigits_ne_nil
        (fun _ => Text.isDigit_of_mem_toDigits) hrest, hmore]
      rfl
  | lam b ih =>
      obtain ⟨placed, stop, hspells, hcut⟩ := ih hrest (start + 2)
      refine ⟨⟨.lambda, start⟩ :: placed, stop, .lam hspells, ?_⟩
      intro more hmore
      rw [charsOnto, cutFrom_lambda, hcut more hmore]
      rfl
  | app f a ihf iha =>
      have hspace : EndsNumeral (' ' :: a.charsOnto (')' :: rest)) := by
        rintro c ⟨⟩
        decide
      have hparen : EndsNumeral (')' :: rest) := by
        rintro c ⟨⟩
        decide
      obtain ⟨fs, stopf, hf, hcutf⟩ := ihf hspace (start + 1)
      obtain ⟨as, stopa, ha, hcuta⟩ := iha hparen (stopf + 1)
      refine ⟨⟨.leftParen, start⟩ :: (fs ++ as ++ [⟨.rightParen, stopa⟩]), stopa + 1, ?_, ?_⟩
      · simp only [List.map_cons, List.map_append, List.map_nil]
        exact .app hf ha
      · intro more hmore
        have hclosing : cutFrom stopa (')' :: rest) = .ok (⟨.rightParen, stopa⟩ :: more) := by
          rw [cutFrom_rightParen, hmore]
          rfl
        have hargument : cutFrom stopf (' ' :: a.charsOnto (')' :: rest)) =
            .ok (as ++ ⟨.rightParen, stopa⟩ :: more) := by
          rw [cutFrom_blank (by decide), hcuta _ hclosing]
        rw [charsOnto, cutFrom_leftParen, hcutf _ hargument]
        simp [Except.map]

/-- The written form of an index term is read as the term. -/
theorem ofText_text (t : IndexTerm) : ofText t.text = .ok t := by
  have hend : EndsNumeral [] := nofun
  obtain ⟨placed, stop, hspells, hcut⟩ := cutFrom_charsOnto t hend 0
  have hplaced : cutFrom 0 t.text.toList = .ok placed := by
    rw [text, String.toList_ofList, hcut [] (by rw [cutFrom]), List.append_nil]
  rw [ofText, hplaced]
  exact mapError_eq_ok_iff.mpr hspells.ofMarks

end BinaryLambda.IndexTerm
