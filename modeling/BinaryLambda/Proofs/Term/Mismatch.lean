import BinaryLambda.Proofs.Diagnostic
import BinaryLambda.Proofs.Term.Reading
import BinaryLambda.Proofs.Text.Offence

set_option autoImplicit false

/-!
# Terms: where reading fails

Reading goes from left to right and never back, so it fails at the first token that cannot
stand where it does: the tokens before it begin those of a term, together with it they do
not (`sticksAt_of_ofTokens`).  A text has one token a character, so the index of the token
is that of the character (`refused_at_first_offence`).

The induction follows the reading.  It says of the tokens before the failure that some term
goes on with them, and of the token at the failure that reading fails again whatever comes
after it (`FailsBetween`).
-/

namespace BinaryLambda

/-! ## Characters -/

namespace Token

/-- The characters of the core language. -/
def characters : List Char := ['(', ')', 'λ', '.'] ++ alphabet

theorem mem_characters_iff {c : Char} : c ∈ characters ↔ ∃ t, ofChar? c = some t := by
  rw [characters, List.mem_append, mem_alphabet_iff]
  constructor
  · rintro (hmark | hletter)
    · simp only [List.mem_cons, List.not_mem_nil, or_false] at hmark
      rcases hmark with rfl | rfl | rfl | rfl <;> exact ⟨_, rfl⟩
    · have hreadable : (letter c.toString).Readable :=
        isLetter_toString (mem_alphabet_iff.mpr hletter)
      exact ⟨letter c.toString, ofChar?_eq_some_iff.mpr ⟨rfl, hreadable⟩⟩
  · rintro ⟨t, ht⟩
    unfold ofChar? at ht
    split_ifs at ht with h₁ h₂ h₃ h₄ h₅
    · exact .inl (by simp [h₁])
    · exact .inl (by simp [h₂])
    · exact .inl (by simp [h₃])
    · exact .inl (by simp [h₄])
    · exact .inr h₅

theorem scans_readFrom (start : Nat) (cs : List Char) :
    Text.Scans (· ∈ characters) start cs (readFrom start cs) := by
  fun_induction readFrom start cs with
  | case1 => exact List.forall_mem_nil _
  | case2 start c cs hc =>
      apply Text.scans_stray
      rw [mem_characters_iff, hc]
      rintro ⟨t, ht⟩
      cases ht
  | case3 start c cs t hc ih => exact (ih.map _).cons (mem_characters_iff.mpr ⟨t, hc⟩)

/-- Reading characters is reading each of them. -/
theorem readFrom_eq_ok_iff (start : Nat) {cs : List Char} {ts : List Token} :
    readFrom start cs = .ok ts ↔ cs.map ofChar? = ts.map some := by
  induction cs generalizing start ts with
  | nil => cases ts <;> simp [readFrom]
  | cons c cs ih =>
      rw [readFrom]
      cases hc : ofChar? c with
      | none => cases ts <;> simp [hc]
      | some t =>
          rw [map_eq_ok_iff]
          cases ts with
          | nil => simp
          | cons u ts => simp [ih, hc, and_comm, eq_comm]

end Token

namespace Term

/-! ## Tokens -/

/-- The token sequences of terms. -/
def Written (ts : List Token) : Prop := ∃ t : Term, ts = t.tokens

/-- The tokens before a failure and those from it on.  Readable tokens complete the first to
a term's, and reading fails as soon as the next token follows them. -/
structure FailsBetween (front rest : List Token) : Prop where
  completes : ∃ more, (∀ token ∈ more, token.Readable) ∧ Written (front ++ more)
  fails : ∀ token ∈ rest.head?, ∀ other, ∃ e, readFront (front ++ token :: other) = .error e

theorem readable_letter_a : (Token.letter "a").Readable := by
  rw [Token.readable_letter]
  decide

/-- A letter completes whatever waits for a term. -/
theorem FailsBetween.of_nil {rest : List Token}
    (h : ∀ token ∈ rest.head?, ∀ other, ∃ e, readFront (token :: other) = .error e) :
    FailsBetween [] rest where
  completes :=
    ⟨[.letter "a"], List.forall_mem_singleton.mpr readable_letter_a, var "a", rfl⟩
  fails := h

theorem FailsBetween.lam {front rest : List Token} (h : FailsBetween front rest) (p : String) :
    FailsBetween (.lambda :: .letter p :: .dot :: front) rest where
  completes := by
    obtain ⟨more, hmore, b, hb⟩ := h.completes
    refine ⟨more, hmore, .lam p b, ?_⟩
    rw [tokens_lam, ← hb]
    rfl
  fails token htoken other := by
    obtain ⟨e, he⟩ := h.fails token htoken other
    refine ⟨e, ?_⟩
    rw [List.cons_append, List.cons_append, List.cons_append, readFront, he]

theorem FailsBetween.function {front rest : List Token} (h : FailsBetween front rest) :
    FailsBetween (.leftParen :: front) rest where
  completes := by
    obtain ⟨more, hmore, f, hf⟩ := h.completes
    refine ⟨more ++ [.letter "a", .rightParen], ?_, app f (var "a"), ?_⟩
    · rw [List.forall_mem_append]
      exact ⟨hmore, by simp [-Token.readable_letter, readable_letter_a]⟩
    · rw [tokens_app, ← hf]
      simp
  fails token htoken other := by
    obtain ⟨e, he⟩ := h.fails token htoken other
    refine ⟨e, ?_⟩
    rw [List.cons_append, readFront, he]

theorem FailsBetween.argument {front rest : List Token} (h : FailsBetween front rest)
    (f : Term) : FailsBetween (.leftParen :: f.tokensOnto front) rest where
  completes := by
    obtain ⟨more, hmore, a, ha⟩ := h.completes
    refine ⟨more ++ [.rightParen], ?_, app f a, ?_⟩
    · rw [List.forall_mem_append]
      exact ⟨hmore, by simp⟩
    · rw [tokens_app, ← ha, tokensOnto_eq]
      simp
  fails token htoken other := by
    obtain ⟨e, he⟩ := h.fails token htoken other
    obtain ⟨⟨sides, _⟩, hf, hsides⟩ := readFront_tokensOnto f (front ++ token :: other)
    dsimp only at hsides
    subst hsides
    refine ⟨e, ?_⟩
    rw [List.cons_append, tokensOnto_append, readFront, hf]
    dsimp only
    rw [he]

/-- After `λ` comes a name. -/
theorem FailsBetween.of_name {rest : List Token}
    (h : ∀ x, ∀ token ∈ rest.head?, token ≠ .letter x) : FailsBetween [.lambda] rest where
  completes := by
    refine ⟨[.letter "a", .dot, .letter "a"], ?_, .lam "a" (var "a"), rfl⟩
    simp [-Token.readable_letter, readable_letter_a]
  fails token htoken other := by
    have hname : ∀ x, token ≠ .letter x := fun x => h x token htoken
    cases token with
    | letter x => exact absurd rfl (hname x)
    | _ => exact ⟨_, by rw [List.cons_append, List.nil_append, readFront]; all_goals simp⟩

/-- After a binder comes a dot. -/
theorem FailsBetween.of_dot (p : String) {rest : List Token}
    (h : ∀ token ∈ rest.head?, token ≠ .dot) : FailsBetween [.lambda, .letter p] rest where
  completes := by
    refine ⟨[.dot, .letter "a"], ?_, .lam p (var "a"), rfl⟩
    simp [-Token.readable_letter, readable_letter_a]
  fails token htoken other := by
    have hdot : token ≠ .dot := h token htoken
    cases token with
    | dot => exact absurd rfl hdot
    | _ =>
        exact ⟨_, by
          rw [List.cons_append, List.cons_append, List.nil_append, readFront]; all_goals simp⟩

/-- After two sides comes a parenthesis. -/
theorem FailsBetween.of_rightParen (f a : Term) {rest : List Token}
    (h : ∀ token ∈ rest.head?, token ≠ .rightParen) :
    FailsBetween (.leftParen :: f.tokensOnto a.tokens) rest where
  completes := by
    refine ⟨[.rightParen], List.forall_mem_singleton.mpr Token.readable_rightParen, app f a, ?_⟩
    rw [tokens_app, tokensOnto_eq, List.cons_append]
  fails token htoken other := by
    have hparen : token ≠ .rightParen := h token htoken
    obtain ⟨⟨closing, _⟩, ha, hclosing⟩ := readFront_tokensOnto a (token :: other)
    obtain ⟨⟨sides, _⟩, hf, hsides⟩ := readFront_tokensOnto f (a.tokensOnto (token :: other))
    dsimp only at hclosing hsides
    subst hclosing hsides
    rw [List.cons_append, tokensOnto_append, ← tokensOnto_eq, readFront, hf]
    dsimp only
    rw [ha]
    cases token with
    | rightParen => exact absurd rfl hparen
    | _ => exact ⟨_, rfl⟩

/-- Where reading fails, it fails between the tokens before and those it keeps. -/
theorem failsBetween_of_readFront {ts : List Token} {e : Mismatch} (h : readFront ts = .error e) :
    ∃ front, ts = front ++ e.rest ∧ FailsBetween front e.rest := by
  fun_induction readFront ts generalizing e with
  | case1 x rest => cases h
  | case2 p body e' he ih =>
      cases h
      obtain ⟨front, rfl, hfails⟩ := ih he
      exact ⟨_, rfl, hfails.lam p⟩
  | case3 p body b rest _ hb ih => cases h
  | case4 p rest hdot =>
      cases h
      refine ⟨[.lambda, .letter p], rfl, .of_dot p ?_⟩
      rintro token htoken rfl
      obtain ⟨tail, rfl⟩ := List.head?_eq_some_iff.mp htoken
      exact hdot tail rfl
  | case5 rest hdot hletter =>
      cases h
      refine ⟨[.lambda], rfl, .of_name ?_⟩
      rintro x token htoken rfl
      obtain ⟨tail, rfl⟩ := List.head?_eq_some_iff.mp htoken
      exact hletter x tail rfl
  | case6 sides e' he ih =>
      cases h
      obtain ⟨front, rfl, hfails⟩ := ih he
      exact ⟨_, rfl, hfails.function⟩
  | case7 sides f rest _ hf e' he ihf iha =>
      cases h
      obtain ⟨front, rfl, hfails⟩ := iha he
      have hsides : sides = f.tokensOnto (front ++ e'.rest) := eq_tokensOnto_of_readFront hf
      refine ⟨_, ?_, hfails.argument f⟩
      rw [hsides, List.cons_append, tokensOnto_append]
  | case8 => cases h
  | case9 sides f rest _ hf a rest' hlt hparen _ ha ihf iha =>
      cases h
      have hsides : sides = f.tokensOnto rest := eq_tokensOnto_of_readFront hf
      have hrest : rest = a.tokensOnto rest' := eq_tokensOnto_of_readFront ha
      refine ⟨.leftParen :: f.tokensOnto a.tokens, ?_, .of_rightParen f a ?_⟩
      · rw [hsides, hrest, List.cons_append, tokensOnto_append, ← tokensOnto_eq]
      · rintro token htoken rfl
        obtain ⟨tail, rfl⟩ := List.head?_eq_some_iff.mp htoken
        exact hparen tail hlt rfl HEq.rfl
  | case10 ts hletter _ _ hlambda hparen =>
      cases h
      refine ⟨[], rfl, .of_nil ?_⟩
      intro token htoken other
      obtain ⟨tail, rfl⟩ := List.head?_eq_some_iff.mp htoken
      cases token with
      | letter x => exact absurd rfl (hletter x tail)
      | lambda => exact absurd rfl (hlambda tail)
      | leftParen => exact absurd rfl (hparen tail)
      | rightParen => exact ⟨_, by rw [readFront]; all_goals simp⟩
      | dot => exact ⟨_, by rw [readFront]; all_goals simp⟩

/-- Reading the tokens of a term does not fail, so nothing goes on from a failure. -/
theorem FailsBetween.not_begins {front rest : List Token} (h : FailsBetween front rest) :
    ∀ token ∈ rest.head?, ¬ Text.Begins Written (front ++ [token]) := by
  rintro token htoken ⟨more, t, ht⟩
  obtain ⟨e, he⟩ := h.fails token htoken more
  have hts : t.tokensOnto [] = front ++ token :: more := by
    rw [← tokens, ← ht, List.append_assoc, List.singleton_append]
  have hread := readFront_tokensOnto t []
  rw [hts] at hread
  obtain ⟨r, hr, -⟩ := hread
  rw [he] at hr
  cases hr

/-- The tokens of a term say where it ends. -/
theorem tokensOnto_inj {t u : Term} {rest rest' : List Token}
    (h : t.tokensOnto rest = u.tokensOnto rest') : t = u ∧ rest = rest' := by
  have hread := readFront_tokensOnto t rest
  rw [h] at hread
  obtain ⟨r, hr, hrest⟩ := hread
  obtain ⟨r', hr', hrest'⟩ := readFront_tokensOnto u rest'
  rw [hr] at hr'
  cases hr'
  exact ⟨rfl, hrest.symm.trans hrest'⟩

/-- Nothing goes on from the tokens of a whole term. -/
theorem not_begins_tokens (t : Term) (token : Token) :
    ¬ Text.Begins Written (t.tokens ++ [token]) := by
  rintro ⟨more, u, hu⟩
  rw [List.append_assoc, List.singleton_append, ← tokensOnto_eq] at hu
  cases (tokensOnto_inj hu).2

theorem position_eq_length {ts front rest : List Token} {what : Expected}
    (h : ts = front ++ rest) : GrammarFault.position ⟨ts, what, rest⟩ = front.length := by
  subst h
  rw [GrammarFault.position, List.length_append]
  exact Nat.add_sub_cancel _ _

/-- A sequence that is refused sticks at the position of the fault: readable tokens complete
what is before it, and nothing goes on from the token there. -/
theorem mismatch_of_ofTokens {ts : List Token} {e : GrammarFault} (h : ofTokens ts = .error e) :
    ∃ front, ts = front ++ e.mismatch.rest ∧ e.position = front.length ∧
      (∃ more, (∀ token ∈ more, token.Readable) ∧ Written (front ++ more)) ∧
      ∀ token ∈ e.mismatch.rest.head?, ¬ Text.Begins Written (front ++ [token]) := by
  unfold ofTokens at h
  split at h
  · rename_i e' he
    cases h
    obtain ⟨front, hts, hfails⟩ := failsBetween_of_readFront he
    exact ⟨front, hts, position_eq_length hts, hfails.completes, hfails.not_begins⟩
  · rename_i t rest _ ht
    split_ifs at h with hempty
    cases h
    have hts : ts = t.tokensOnto rest := eq_tokensOnto_of_readFront ht
    rw [tokensOnto_eq] at hts
    refine ⟨t.tokens, hts, position_eq_length hts, ?_, fun token _ => not_begins_tokens t token⟩
    exact ⟨[], List.forall_mem_nil _, t, List.append_nil _⟩

theorem sticksAt_of_ofTokens {ts : List Token} {e : GrammarFault} (h : ofTokens ts = .error e) :
    Text.SticksAt Written ts e.position := by
  obtain ⟨front, hts, hposition, ⟨more, _, hwritten⟩, hstuck⟩ := mismatch_of_ofTokens h
  rw [hposition, hts]
  exact Text.sticksAt_of_append ⟨more, hwritten⟩ hstuck

/-- The diagnostic of a refused sequence points at the offending token, and it has a
message. -/
theorem GrammarFault.diagnostic_spec (e : GrammarFault) :
    e.diagnostic.topic = .grammar e.position ∧ e.diagnostic.subject = Token.spell e.tokens ∧
      e.diagnostic.start = e.position ∧ e.diagnostic.checked = .ok e.diagnostic := by
  obtain ⟨tokens, expected, rest⟩ := e
  cases expected <;> cases rest <;> exact ⟨rfl, rfl, rfl, Diagnostic.checked_marking _ _ rfl⟩

/-! ## Texts -/

/-- The characters of the texts that are read. -/
def Legible (cs : List Char) : Prop := ∃ t, ofText (String.ofList cs) = .ok t

/-- A text is read as a term exactly if its characters stand for the tokens of the term. -/
theorem ofText_eq_ok_iff_map {s : String} {t : Term} :
    ofText s = .ok t ↔ s.toList.map Token.ofChar? = t.tokens.map some := by
  rw [ofText, ← Token.readFrom_eq_ok_iff 0, Token.read]
  constructor
  · intro h
    split at h
    · cases h
    · rename_i ts hread
      rw [← ofTokens_eq_ok_iff.mp (mapError_eq_ok_iff.mp h)]
      exact mapError_eq_ok_iff.mp hread
  · intro h
    rw [h]
    exact mapError_eq_ok_iff.mpr (ofTokens_tokens t)

theorem legible_iff {cs : List Char} :
    Legible cs ↔ ∃ t : Term, cs.map Token.ofChar? = t.tokens.map some := by
  unfold Legible
  simp only [ofText_eq_ok_iff_map, String.toList_ofList]

/-- What readable tokens complete, their characters complete. -/
theorem begins_legible {cs : List Char} {ts more : List Token}
    (hcs : cs.map Token.ofChar? = ts.map some) (hmore : ∀ token ∈ more, token.Readable)
    (hwritten : Written (ts ++ more)) : Text.Begins Legible cs := by
  obtain ⟨t, ht⟩ := hwritten
  have hspell := (Token.readFrom_eq_ok_iff 0).mp (Token.readFrom_spell hmore 0)
  refine ⟨(Token.spell more).toList, legible_iff.mpr ⟨t, ?_⟩⟩
  rw [List.map_append, hcs, hspell, ← List.map_append, ht]

/-- Tokens whose characters go on go on themselves. -/
theorem begins_written_of_legible {cs : List Char} {ts : List Token}
    (hcs : cs.map Token.ofChar? = ts.map some) (h : Text.Begins Legible cs) :
    Text.Begins Written ts := by
  obtain ⟨more, hlegible⟩ := h
  obtain ⟨t, ht⟩ := legible_iff.mp hlegible
  rw [List.map_append, hcs, List.append_eq_map_iff] at ht
  obtain ⟨front, back, htokens, hfront, -⟩ := ht
  obtain rfl : front = ts := List.map_injective_iff.mpr (Option.some_injective _) hfront
  exact ⟨back, t, htokens.symm⟩

/-- A text that is refused for its tokens sticks at the same place as they do. -/
theorem sticksAt_of_ofText {s : String} {e : GrammarFault} (h : ofText s = .error (.grammar e)) :
    Text.SticksAt Legible s.toList e.position := by
  rw [ofText] at h
  split at h
  · cases h
  rename_i ts hread
  have hchars : s.toList.map Token.ofChar? = ts.map some :=
    (Token.readFrom_eq_ok_iff 0).mp (mapError_eq_ok_iff.mp hread)
  obtain ⟨e', he, hgrammar⟩ := mapError_eq_error_iff.mp h
  cases hgrammar
  have hsticks := sticksAt_of_ofTokens he
  have htake : ∀ n, (s.toList.take n).map Token.ofChar? = (ts.take n).map some := by
    intro n
    rw [List.map_take, List.map_take, hchars]
  have hlength : s.toList.length = ts.length := by
    rw [← List.length_map Token.ofChar?, hchars, List.length_map]
  refine ⟨?_, ?_, ?_⟩
  · rw [hlength]
    exact hsticks.le
  · obtain ⟨front, hts, hposition, ⟨more, hmore, hwritten⟩, -⟩ := mismatch_of_ofTokens he
    have hfront : ts.take e.position = front := by
      rw [hposition, hts, List.take_left]
    rw [← hfront] at hwritten
    exact begins_legible (htake _) hmore hwritten
  · rw [hlength]
    exact hsticks.stuck.imp_right fun hstuck hbegins =>
      hstuck (begins_written_of_legible (htake _) hbegins)

/-- A text is refused for a character exactly if the tokens are. -/
theorem ofText_eq_stray_iff {s : String} {e : StrayCharacter} :
    ofText s = .error (.stray e) ↔ Token.read s = .error e := by
  rw [ofText]
  constructor
  · intro h
    split at h
    · rename_i e' hread
      cases h
      exact hread
    · obtain ⟨_, _, hgrammar⟩ := mapError_eq_error_iff.mp h
      cases hgrammar
  · intro h
    rw [h]

theorem firstStray_of_ofText {s : String} {e : StrayCharacter} (h : ofText s = .error (.stray e)) :
    Text.FirstStray (· ∈ Token.characters) s.toList e.position e.character := by
  obtain ⟨stop, hread, rfl⟩ := mapError_eq_error_iff.mp (ofText_eq_stray_iff.mp h)
  exact (Token.scans_readFrom 0 s.toList).firstStray hread

theorem exists_stray_iff (s : String) :
    (∃ e, ofText s = .error (.stray e)) ↔ ∃ c ∈ s.toList, c ∉ Token.characters := by
  simp only [ofText_eq_stray_iff]
  exact (Token.scans_readFrom 0 s.toList).exists_mapError_iff _

/-- **A refusal points at the first thing that cannot be right.**  A token sequence that is no
term's is refused at a token: a term begins with the tokens before it, and no term with them
and it, or it is the end of the sequence.  A text that is read is the text of its term.  A
text is refused for a stray character exactly if it has a character outside the language, and
then it is refused at the first of them.  Every other text that is refused is refused at a
character: a text that is read begins with those before it, and none with them and it, or it
is the end of the text.  The diagnostics have a message and point there. -/
theorem refused_at_first_offence :
    (∀ ts : List Token, (∀ t : Term, ts ≠ t.tokens) →
      ∃ e, ofTokens ts = .error e ∧ e.diagnostic.topic = .grammar e.position ∧
        e.diagnostic.start = e.position ∧ e.diagnostic.checked = .ok e.diagnostic ∧
        Text.SticksAt Written ts e.position) ∧
    ∀ s : String,
      (∀ t, ofText s = .ok t → s = t.text) ∧
      ((∃ e, ofText s = .error (.stray e)) ↔ ∃ c ∈ s.toList, c ∉ Token.characters) ∧
      (∀ e, ofText s = .error (.stray e) →
        Text.FirstStray (· ∈ Token.characters) s.toList e.position e.character ∧
          e.diagnostic.topic = .alphabet ∧ e.diagnostic.start = e.position ∧
          e.diagnostic.checked = .ok e.diagnostic) ∧
      ∀ e, ofText s = .error (.grammar e) →
        Text.SticksAt Legible s.toList e.position ∧
          e.diagnostic.topic = .grammar e.position ∧ e.diagnostic.start = e.position ∧
          e.diagnostic.checked = .ok e.diagnostic := by
  refine ⟨?_, fun s => ⟨?_, ?_, ?_, ?_⟩⟩
  · intro ts hts
    cases h : ofTokens ts with
    | ok t => exact absurd (ofTokens_eq_ok_iff.mp h) (hts t)
    | error e =>
        obtain ⟨htopic, -, hstart, hchecked⟩ := e.diagnostic_spec
        exact ⟨e, rfl, htopic, hstart, hchecked, sticksAt_of_ofTokens h⟩
  · intro t ht
    exact (ofText_eq_ok_iff.mp ht).1
  · exact exists_stray_iff s
  · intro e h
    obtain ⟨htopic, -, hstart, hchecked⟩ := e.diagnostic_spec
    exact ⟨firstStray_of_ofText h, htopic, hstart, hchecked⟩
  · intro e h
    obtain ⟨htopic, -, hstart, hchecked⟩ := e.diagnostic_spec
    exact ⟨sticksAt_of_ofText h, htopic, hstart, hchecked⟩

/-- The argument has begun, and the body of its abstraction is missing. -/
example : ofText "(xλx.)" =
    .error (.grammar ⟨[.leftParen, .letter "x", .lambda, .letter "x", .dot, .rightParen],
      ⟨.term, [.rightParen]⟩⟩) := by
  cbv

end Term

end BinaryLambda
