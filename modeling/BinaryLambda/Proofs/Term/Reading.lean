import BinaryLambda.Proofs.Term.Letters
import BinaryLambda.Term.Parser
import BinaryLambda.Term.Printer
import Mathlib.Data.Set.Function

set_option autoImplicit false

/-!
# Terms: reading what was written

Reading a token sequence and writing a term undo each other, whatever names are in
the tokens (`ofTokens_eq_ok_iff`).  A text has one token a character, so on texts
this holds for the terms of letters, and only they come from a text
(`ofText_eq_ok_iff`).
-/

namespace BinaryLambda

/-! ## Characters and tokens -/

namespace Token

/-- A token that is written with one character: its name, if it has one, is a
letter. -/
def Readable : Token → Prop
  | letter name => IsLetter name
  | _ => True

@[simp] theorem readable_leftParen : leftParen.Readable := trivial

@[simp] theorem readable_rightParen : rightParen.Readable := trivial

@[simp] theorem readable_lambda : lambda.Readable := trivial

@[simp] theorem readable_dot : dot.Readable := trivial

@[simp] theorem readable_letter {name : String} : (letter name).Readable ↔ IsLetter name := Iff.rfl

/-- A character stands for the tokens that it spells. -/
theorem ofChar?_eq_some_iff {c : Char} {t : Token} :
    ofChar? c = some t ↔ t.text = c.toString ∧ t.Readable := by
  constructor
  · intro h
    unfold ofChar? at h
    split_ifs at h with h₁ h₂ h₃ h₄ h₅
    · cases h
      exact ⟨by rw [h₁]; rfl, trivial⟩
    · cases h
      exact ⟨by rw [h₂]; rfl, trivial⟩
    · cases h
      exact ⟨by rw [h₃]; rfl, trivial⟩
    · cases h
      exact ⟨by rw [h₄]; rfl, trivial⟩
    · cases h
      exact ⟨rfl, isLetter_toString (mem_alphabet_iff.mpr h₅)⟩
  · rintro ⟨htext, hreadable⟩
    have hinj : ∀ {d : Char}, d.toString = c.toString → c = d := by
      intro d hd
      exact (String.singleton_inj.mp hd).symm
    cases t with
    | leftParen =>
        obtain rfl : c = '(' := hinj htext
        rfl
    | rightParen =>
        obtain rfl : c = ')' := hinj htext
        rfl
    | lambda =>
        obtain rfl : c = 'λ' := hinj htext
        rfl
    | dot =>
        obtain rfl : c = '.' := hinj htext
        rfl
    | letter name =>
        obtain ⟨d, hd, rfl⟩ := List.mem_map.mp hreadable
        obtain rfl : c = d := hinj htext
        have hall : (alphabet.all fun d => ofChar? d == some (letter d.toString)) = true := by
          decide
        exact eq_of_beq (List.all_eq_true.mp hall c hd)

theorem Readable.exists_char {t : Token} (h : t.Readable) : ∃ c : Char, t.text = c.toString := by
  cases t with
  | leftParen => exact ⟨'(', rfl⟩
  | rightParen => exact ⟨')', rfl⟩
  | lambda => exact ⟨'λ', rfl⟩
  | dot => exact ⟨'.', rfl⟩
  | letter name =>
      obtain ⟨c, _, hc⟩ := List.mem_map.mp h
      exact ⟨c, hc.symm⟩

@[simp] theorem spell_cons (t : Token) (ts : List Token) :
    spell (t :: ts) = t.text ++ spell ts := by
  rw [spell, List.map_cons, String.join_cons, spell]

/-- What is read from characters spells them. -/
theorem spell_of_readFrom {position : Nat} {cs : List Char} {ts : List Token}
    (h : readFrom position cs = .ok ts) :
    spell ts = String.ofList cs ∧ ∀ t ∈ ts, t.Readable := by
  induction cs generalizing position ts with
  | nil =>
      cases h
      exact ⟨rfl, nofun⟩
  | cons c cs ih =>
      rw [readFrom] at h
      split at h
      · cases h
      · rename_i t ht
        obtain ⟨ts, hts, rfl⟩ := map_eq_ok_iff.mp h
        obtain ⟨htext, hreadable⟩ := ofChar?_eq_some_iff.mp ht
        obtain ⟨hspell, hall⟩ := ih hts
        constructor
        · rw [spell_cons, htext, hspell, Char.toString_eq_singleton, String.singleton_eq_ofList,
            ← String.ofList_append, List.singleton_append]
        · exact List.forall_mem_cons.mpr ⟨hreadable, hall⟩

/-- What readable tokens spell is read as them. -/
theorem readFrom_spell {ts : List Token} (h : ∀ t ∈ ts, t.Readable) (position : Nat) :
    readFrom position (spell ts).toList = .ok ts := by
  induction ts generalizing position with
  | nil => rfl
  | cons t ts ih =>
      obtain ⟨hreadable, hall⟩ := List.forall_mem_cons.mp h
      obtain ⟨c, hc⟩ := hreadable.exists_char
      have hchars : (spell (t :: ts)).toList = c :: (spell ts).toList := by
        rw [spell_cons, String.toList_append, hc, Char.toString_eq_singleton,
          String.toList_singleton, List.singleton_append]
      rw [hchars, readFrom, ofChar?_eq_some_iff.mpr ⟨hc, hreadable⟩, ih hall]
      rfl

/-- A text is read as the readable tokens that spell it. -/
theorem read_eq_ok_iff {s : String} {ts : List Token} :
    read s = .ok ts ↔ spell ts = s ∧ ∀ t ∈ ts, t.Readable := by
  rw [read, mapError_eq_ok_iff]
  constructor
  · intro h
    obtain ⟨hspell, hall⟩ := spell_of_readFrom h
    exact ⟨by rw [hspell, String.ofList_toList], hall⟩
  · rintro ⟨rfl, hall⟩
    exact readFrom_spell hall 0

end Token

namespace Term

/-! ## Tokens and terms -/

/-- The tokens of a term are read back, whatever follows them. -/
theorem readFront_tokensOnto (t : Term) (rest : List Token) :
    ∃ r, readFront (t.tokensOnto rest) = .ok (t, r) ∧ r.1 = rest := by
  induction t generalizing rest with
  | var x =>
      rw [tokensOnto, readFront]
      exact ⟨_, rfl, rfl⟩
  | lam p b ih =>
      obtain ⟨⟨rest', _⟩, hb, hrest⟩ := ih rest
      rw [tokensOnto, readFront, hb]
      exact ⟨_, rfl, hrest⟩
  | app f a ihf iha =>
      obtain ⟨⟨closing, _⟩, ha, hclosing⟩ := iha (.rightParen :: rest)
      obtain ⟨⟨sides, _⟩, hf, hsides⟩ := ihf (a.tokensOnto (.rightParen :: rest))
      dsimp only at hclosing hsides
      subst hclosing hsides
      rw [tokensOnto, readFront, hf]
      dsimp only
      rw [ha]
      exact ⟨_, rfl, rfl⟩

/-- What is read as a term is its tokens, and the rest follows them. -/
theorem eq_tokensOnto_of_readFront {ts : List Token} {t : Term}
    {r : { rest : List Token // rest.length < ts.length }} (h : readFront ts = .ok (t, r)) :
    ts = t.tokensOnto r.1 := by
  fun_induction readFront ts generalizing t with
  | case1 x rest =>
      cases h
      rfl
  | case2 => cases h
  | case3 p body b rest hlt hb ih =>
      cases h
      rw [tokensOnto, ← ih hb]
  | case4 => cases h
  | case5 => cases h
  | case6 => cases h
  | case7 => cases h
  | case8 sides f rest hlt hf a rest' hlt' hlt'' ha ihf iha =>
      have hsides : sides = f.tokensOnto rest := ihf hf
      have hrest : rest = a.tokensOnto (.rightParen :: rest') := iha ha
      cases h
      rw [tokensOnto, ← hrest, ← hsides]
  | case9 => cases h
  | case10 => cases h

theorem ofTokens_tokens (t : Term) : ofTokens t.tokens = .ok t := by
  obtain ⟨⟨rest, _⟩, ht, hrest⟩ := readFront_tokensOnto t []
  dsimp only at hrest
  subst hrest
  rw [ofTokens, tokens, ht]
  rfl

/-- A token sequence is read as a term exactly if it is the term's. -/
theorem ofTokens_eq_ok_iff {ts : List Token} {t : Term} : ofTokens ts = .ok t ↔ ts = t.tokens := by
  constructor
  · intro h
    rw [ofTokens] at h
    split at h
    · cases h
    · rename_i u rest hlt hu
      split at h
      · rename_i hempty
        have hts : ts = u.tokensOnto rest := eq_tokensOnto_of_readFront hu
        cases h
        rw [hts, List.isEmpty_iff.mp hempty, tokens]
      · cases h
  · rintro rfl
    exact ofTokens_tokens t

/-! ## Texts and terms of letters -/

/-- The terms that are written with one character a token are the terms of letters. -/
theorem readable_tokens_iff {t : Term} : (∀ token ∈ t.tokens, token.Readable) ↔ t.Lettered := by
  induction t with
  | var x => simp
  | lam p b ih => simp [ih]
  | app f a ihf iha => simp [or_imp, forall_and, ihf, iha]

/-- A text is read as a term exactly if it is the term's and the term has letters for
names. -/
theorem ofText_eq_ok_iff {s : String} {t : Term} : ofText s = .ok t ↔ s = t.text ∧ t.Lettered := by
  rw [ofText]
  constructor
  · intro h
    split at h
    · cases h
    · rename_i ts hread
      obtain ⟨hspell, hall⟩ := Token.read_eq_ok_iff.mp hread
      obtain rfl : ts = t.tokens := ofTokens_eq_ok_iff.mp (mapError_eq_ok_iff.mp h)
      exact ⟨hspell.symm, readable_tokens_iff.mp hall⟩
  · rintro ⟨rfl, hletters⟩
    have hread : Token.read t.text = .ok t.tokens :=
      Token.read_eq_ok_iff.mpr ⟨rfl, readable_tokens_iff.mpr hletters⟩
    rw [hread]
    exact mapError_eq_ok_iff.mpr (ofTokens_tokens t)

/-- A term of letters is read back from its text. -/
theorem Lettered.ofText_text {t : Term} (h : t.Lettered) : ofText t.text = .ok t :=
  ofText_eq_ok_iff.mpr ⟨rfl, h⟩

/-- **Reading and writing terms undo each other.**  A token sequence is read as a term
exactly if it is the sequence of that term, whatever its names are.  A text is read
as a term exactly if it is the text of that term and every name in the term is one
letter of the alphabet.  So writing is a bijection from the terms of letters to the
texts that are accepted. -/
theorem bijOn_text :
    (∀ (ts : List Token) (t : Term), ofTokens ts = .ok t ↔ ts = t.tokens) ∧
      (∀ (s : String) (t : Term), ofText s = .ok t ↔ s = t.text ∧ t.Lettered) ∧
      Set.BijOn text {t | t.Lettered} {s | ∃ t, ofText s = .ok t} := by
  refine ⟨fun _ _ => ofTokens_eq_ok_iff, fun _ _ => ofText_eq_ok_iff, ?_, ?_, ?_⟩
  · intro t ht
    exact ⟨t, ht.ofText_text⟩
  · intro t ht u hu htext
    have hread : ofText t.text = .ok u := by
      rw [htext]
      exact Lettered.ofText_text hu
    rw [Lettered.ofText_text ht] at hread
    exact Except.ok.inj hread
  · rintro s ⟨t, ht⟩
    obtain ⟨rfl, hletters⟩ := ofText_eq_ok_iff.mp ht
    exact ⟨t, hletters, rfl⟩

/-- A name of two letters is one token, but its text is two. -/
example : ofTokens (var "xy").tokens = .ok (var "xy") ∧
    ofText (var "xy").text =
      .error (.grammar ⟨[.letter "x", .letter "y"], ⟨.finish, [.letter "y"]⟩⟩) := by
  cbv

end Term

end BinaryLambda
