import BinaryLambda.Proofs.Surface.Reading

set_option autoImplicit false

/-!
# Surface syntax: the grammar

`Phrase` and `Operand` are the syntax trees of the grammar

```
phrase  ::= operand* (operand | abstraction)
operand ::= "(" phrase ")" | letter | name of a combinator | digits
abstraction ::= mark word+ "." phrase
```

A tree has tokens and a term.  A text is read as a term if and only if its tokens are
those of a tree of the term, and they are those of one tree at most
(`ofText_eq_ok_iff_phrase`).
-/

namespace BinaryLambda.Surface

/-! ## Syntax trees -/

mutual

/-- An operand that other operands may follow. -/
inductive Operand where
  | group (inner : Phrase)
  | letter (c : Char)
  | combinator (c : Combinator)
  | numeral (digits : List Char)

/-- A sequence of operands.  An abstraction is always the last one: its body reaches as
far as it can. -/
inductive Phrase where
  | last (a : Operand)
  /-- an abstraction of the letters of `first` and of the words `more` -/
  | abstraction (mark : Char) (first : List Char) (more : List (List Char)) (body : Phrase)
  | cons (a : Operand) (rest : Phrase)

end

mutual

/-- The tokens of an operand. -/
def Operand.tokens : Operand → List Token
  | .group p => .leftParen :: (p.tokens ++ [.rightParen])
  | .letter c => [.word [c]]
  | .combinator c => [.word c.name.toList]
  | .numeral digits => [.numeral digits]

/-- The tokens of a phrase. -/
def Phrase.tokens : Phrase → List Token
  | .last a => a.tokens
  | .abstraction mark first more body =>
    .lambda mark :: ((first :: more).map .word ++ .dot :: body.tokens)
  | .cons a rest => a.tokens ++ rest.tokens

end

/-- The application of the first term to the others, associating to the left. -/
def leftNested (terms : Term × List Term) : Term := terms.2.foldl .app terms.1

mutual

/-- The term of an operand. -/
def Operand.term : Operand → Term
  | .group p => leftNested p.operands
  | .letter c => .var c.toString
  | .combinator c => c.term
  | .numeral digits => .church (Text.digitsValue digits)

/-- The terms of the operands of a phrase, the first one apart.  An abstraction has one
binder for each letter of its words. -/
def Phrase.operands : Phrase → Term × List Term
  | .last a => (a.term, [])
  | .abstraction _ first more body =>
    ((first :: more).flatten.foldr (fun c t => .lam c.toString t) (leftNested body.operands), [])
  | .cons a rest => (a.term, rest.operands.1 :: rest.operands.2)

end

/-- The term of a phrase. -/
def Phrase.term (p : Phrase) : Term := leftNested p.operands

/-- The term of a phrase after the operands that are already applied. -/
def Phrase.after (left : Option Term) (p : Phrase) : Term :=
  p.operands.2.foldl .app (applied left p.operands.1)

theorem Phrase.after_last (left : Option Term) (a : Operand) :
    (Phrase.last a).after left = applied left a.term := by
  rw [Phrase.after, Phrase.operands]
  rfl

theorem Phrase.after_abstraction (left : Option Term) (mark : Char) (first : List Char)
    (more : List (List Char)) (body : Phrase) :
    (Phrase.abstraction mark first more body).after left =
      applied left (abstractAll (first :: more).flatten body.term) := by
  rw [Phrase.after, Phrase.operands]
  rfl

theorem Phrase.after_cons (left : Option Term) (a : Operand) (rest : Phrase) :
    (Phrase.cons a rest).after left = rest.after (some (applied left a.term)) := by
  rw [Phrase.after, Phrase.operands]
  rfl

/-! ## First tokens -/

/-- No operand begins at the front of the tokens. -/
def Stops (ts : List Token) : Prop := ∀ token ∈ ts.head?, token.startsOperand = false

theorem stops_nil : Stops [] := nofun

theorem stops_rightParen (ts : List Token) : Stops (.rightParen :: ts) := by
  rintro _ ⟨⟩
  rfl

theorem Operand.startsOperand_tokens (a : Operand) (rest : List Token) :
    ¬ Stops (a.tokens ++ rest) := by
  intro h
  cases a <;> rw [Operand.tokens] at h <;> cases h _ rfl

theorem Phrase.startsOperand_tokens (p : Phrase) (rest : List Token) :
    ¬ Stops (p.tokens ++ rest) := by
  cases p with
  | last a =>
      rw [Phrase.tokens]
      exact a.startsOperand_tokens rest
  | abstraction mark first more body =>
      rw [Phrase.tokens]
      intro h
      cases h _ rfl
  | cons a tail =>
      rw [Phrase.tokens, List.append_assoc]
      exact a.startsOperand_tokens _

theorem ReadsTo.stops {left : Option Term} {ts rest : List Token} {t : Term}
    (h : ReadsTo left ts t rest) : Stops rest := by
  induction h with
  | finish _ hrest => exact hrest
  | group _ _ _ ih => exact ih
  | abstraction _ _ _ _ _ ih => exact ih
  | word _ _ ih => exact ih
  | numeral _ ih => exact ih

/-! ## What is read is a phrase -/

theorem eq_words_of_readParameters {ts rest : List Token} {parameters : List Char}
    (h : readParameters ts = (parameters, rest)) :
    ∃ words : List (List Char), ts = words.map .word ++ rest ∧ words.flatten = parameters := by
  fun_induction readParameters ts generalizing parameters rest with
  | case1 letters tail more rest' hmore ih =>
      cases h
      obtain ⟨words, hwords, hflatten⟩ := ih hmore
      exact ⟨letters :: words, congrArg (_ :: ·) hwords, congrArg (letters ++ ·) hflatten⟩
  | case2 ts =>
      cases h
      exact ⟨[], rfl, rfl⟩

theorem exists_operand_of_wordTerm? {letters : List Char} {t : Term}
    (h : wordTerm? letters = some t) : ∃ a : Operand, a.tokens = [.word letters] ∧ a.term = t := by
  unfold wordTerm? at h
  split at h
  · rename_i c
    cases h
    exact ⟨.letter c, by rw [Operand.tokens], by rw [Operand.term]⟩
  · obtain ⟨c, hc, rfl⟩ := Option.map_eq_some_iff.mp h
    have hname := List.find?_some hc
    rw [beq_iff_eq] at hname
    refine ⟨.combinator c, ?_, by rw [Operand.term]⟩
    rw [Operand.tokens, hname, String.toList_ofList]

/-- Either nothing is read after the operands that are already applied, or a phrase is. -/
def ReadsPhrase (left : Option Term) (ts : List Token) (t : Term) (rest : List Token) : Prop :=
  (left = some t ∧ ts = rest) ∨ ∃ p : Phrase, ts = p.tokens ++ rest ∧ p.after left = t

theorem ReadsPhrase.of_none {ts rest : List Token} {t : Term} (h : ReadsPhrase none ts t rest) :
    ∃ p : Phrase, ts = p.tokens ++ rest ∧ p.term = t :=
  h.resolve_left fun hleft => nomatch hleft.1

/-- An operand in front makes a phrase of what follows. -/
theorem ReadsPhrase.cons {left : Option Term} {ts rest : List Token} {t : Term} (a : Operand)
    (h : ReadsPhrase (some (applied left a.term)) ts t rest) :
    ReadsPhrase left (a.tokens ++ ts) t rest := by
  rcases h with ⟨ht, rfl⟩ | ⟨p, rfl, ht⟩
  · refine .inr ⟨.last a, by rw [Phrase.tokens], ?_⟩
    rw [Phrase.after_last]
    exact Option.some.inj ht
  · refine .inr ⟨.cons a p, ?_, ?_⟩
    · rw [Phrase.tokens, List.append_assoc]
    · rw [Phrase.after_cons, ht]

theorem ReadsTo.readsPhrase {left : Option Term} {ts rest : List Token} {t : Term}
    (h : ReadsTo left ts t rest) : ReadsPhrase left ts t rest := by
  induction h with
  | finish t _ => exact .inl ⟨rfl, rfl⟩
  | @group left inner rest rest' operand t _ _ ihoperand iht =>
      obtain ⟨p, rfl, rfl⟩ := ihoperand.of_none
      have hgroup : (Operand.group p).term = p.term := by
        rw [Operand.term]
        rfl
      rw [← hgroup] at iht
      have hphrase := iht.cons
      rw [Operand.tokens] at hphrase
      simpa using hphrase
  | @abstraction left mark inner body rest rest' parameters b t hparameters hne hb ht ihb iht =>
      obtain ⟨words, rfl, rfl⟩ := eq_words_of_readParameters hparameters
      obtain ⟨p, rfl, rfl⟩ := ihb.of_none
      -- The body has taken all the operands there are.
      have hend : applied left (abstractAll words.flatten p.term) = t ∧ rest = rest' := by
        rcases iht with ⟨ht, hrest⟩ | ⟨q, hq, _⟩
        · exact ⟨Option.some.inj ht, hrest⟩
        · exact absurd (hq ▸ hb.stops) (q.startsOperand_tokens rest')
      obtain ⟨rfl, rfl⟩ := hend
      obtain ⟨first, more, rfl⟩ : ∃ first more, words = first :: more := by
        cases words with
        | nil => exact absurd rfl hne
        | cons first more => exact ⟨first, more, rfl⟩
      refine .inr ⟨.abstraction mark first more p, ?_, p.after_abstraction left mark first more⟩
      rw [Phrase.tokens]
      simp
  | @word left letters rest rest' operand t hoperand _ iht =>
      obtain ⟨a, ha, rfl⟩ := exists_operand_of_wordTerm? hoperand
      have hphrase := iht.cons
      rw [ha] at hphrase
      exact hphrase
  | @numeral left digits rest rest' t _ iht =>
      have hnumeral : (Operand.numeral digits).term = .church (Text.digitsValue digits) := by
        rw [Operand.term]
      rw [← hnumeral] at iht
      have hphrase := iht.cons
      rw [Operand.tokens] at hphrase
      exact hphrase

/-! ## A phrase is read -/

/-- All the words in front of another token are parameters. -/
theorem readParameters_words (words : List (List Char)) {rest : List Token}
    (hrest : ∀ letters, .word letters ∉ rest.head?) :
    readParameters (words.map .word ++ rest) = (words.flatten, rest) := by
  induction words with
  | nil =>
      rw [List.map_nil, List.nil_append, readParameters, List.flatten_nil]
      rintro letters tail rfl
      exact hrest letters rfl
  | cons letters words ih => rw [List.map_cons, List.cons_append, readParameters, ih]; rfl

theorem word_notMem_dot (letters : List Char) (rest : List Token) :
    .word letters ∉ (Token.dot :: rest).head? := nofun

theorem wordTerm?_name (c : Combinator) : wordTerm? c.name.toList = some c.term := by
  cases c <;> decide

mutual

/-- An operand is read in front of what is read after it. -/
theorem Operand.readsTo (a : Operand) {left : Option Term} {ts rest : List Token} {t : Term}
    (hwords : .word [] ∉ a.tokens) (h : ReadsTo (some (applied left a.term)) ts t rest) :
    ReadsTo left (a.tokens ++ ts) t rest := by
  cases a with
  | group p =>
      rw [Operand.tokens] at hwords ⊢
      rw [Operand.term] at h
      have hinner : .word [] ∉ p.tokens := fun h => hwords (by simp [h])
      have hread : ReadsTo none (p.tokens ++ .rightParen :: ts) p.term (.rightParen :: ts) :=
        p.readsTo hinner (stops_rightParen ts)
      rw [List.cons_append, List.append_assoc]
      exact .group hread h
  | letter c =>
      rw [Operand.tokens]
      rw [Operand.term] at h
      exact .word rfl h
  | combinator c =>
      rw [Operand.tokens]
      rw [Operand.term] at h
      exact .word (wordTerm?_name c) h
  | numeral digits =>
      rw [Operand.tokens]
      rw [Operand.term] at h
      exact .numeral h

/-- A phrase is read before tokens that do not go on with it. -/
theorem Phrase.readsTo (p : Phrase) {left : Option Term} {rest : List Token}
    (hwords : .word [] ∉ p.tokens) (hrest : Stops rest) :
    ReadsTo left (p.tokens ++ rest) (p.after left) rest := by
  cases p with
  | last a =>
      rw [Phrase.tokens] at hwords ⊢
      rw [Phrase.after_last]
      exact a.readsTo hwords (.finish _ hrest)
  | abstraction mark first more body =>
      rw [Phrase.tokens] at hwords ⊢
      rw [Phrase.after_abstraction]
      have hfirst : first ≠ [] := by
        rintro rfl
        exact hwords (by simp)
      have hbody : .word [] ∉ body.tokens := fun h => hwords (by simp [h])
      have hparameters := readParameters_words (first :: more)
        (fun letters => word_notMem_dot letters (body.tokens ++ rest))
      have hne : (first :: more).flatten ≠ [] := by simp [hfirst]
      have hread : ReadsTo none (body.tokens ++ rest) body.term rest := body.readsTo hbody hrest
      rw [List.cons_append, List.append_assoc, List.cons_append]
      exact .abstraction hparameters hne hread (.finish _ hrest)
  | cons a tail =>
      rw [Phrase.tokens] at hwords ⊢
      rw [Phrase.after_cons, List.append_assoc]
      rw [List.mem_append, not_or] at hwords
      exact a.readsTo hwords.1 (tail.readsTo hwords.2 hrest)

end

/-- What is read by the rules is read. -/
theorem ReadsTo.exists_readTerm {left : Option Term} {ts rest : List Token} {t : Term}
    (h : ReadsTo left ts t rest) : ∃ r, readTerm left ts = .ok (t, r) ∧ r.1 = rest := by
  induction h with
  | finish t hrest =>
      rw [readTerm]
      · exact ⟨_, rfl, rfl⟩
      all_goals
        intros
        subst_vars
        cases hrest _ rfl
  | group _ _ ihoperand iht =>
      obtain ⟨⟨closing, _⟩, hoperand, hclosing⟩ := ihoperand
      obtain ⟨⟨tail, _⟩, ht, htail⟩ := iht
      dsimp only at hclosing htail
      subst hclosing htail
      rw [readTerm, hoperand]
      dsimp only
      rw [ht]
      exact ⟨_, rfl, rfl⟩
  | @abstraction left mark inner body rest rest' parameters b t hparameters hne _ _ ihb iht =>
      obtain ⟨⟨tail, _⟩, hb, htail⟩ := ihb
      obtain ⟨⟨tail', _⟩, ht, htail'⟩ := iht
      dsimp only at htail htail'
      subst htail htail'
      rw [readTerm]
      split
      · rename_i hp
        rw [hparameters] at hp
        cases hp
        exact absurd rfl hne
      · rename_i hp
        rw [hparameters] at hp
        cases hp
        rw [hb]
        dsimp only
        rw [ht]
        exact ⟨_, rfl, rfl⟩
      · rename_i hdot hp
        rw [hparameters] at hp
        cases hp
        exact (hdot _ rfl).elim
  | word hoperand _ iht =>
      obtain ⟨⟨tail, _⟩, ht, htail⟩ := iht
      dsimp only at htail
      subst htail
      rw [readTerm, hoperand]
      dsimp only
      rw [ht]
      exact ⟨_, rfl, rfl⟩
  | numeral _ iht =>
      obtain ⟨⟨tail, _⟩, ht, htail⟩ := iht
      dsimp only at htail
      subst htail
      rw [readTerm, ht]
      exact ⟨_, rfl, rfl⟩

/-! ## One tree at most -/

theorem name_ne_letter (c : Combinator) (d : Char) : c.name.toList ≠ [d] := by
  have hlength : c.name.toList.length ≠ 1 := by cases c <;> decide
  intro h
  exact hlength (by rw [h]; rfl)

theorem name_toList_injective {c c' : Combinator} (h : c.name.toList = c'.name.toList) :
    c = c' := by
  have hname := Combinator.ofName?_name c
  rw [String.toList_inj.mp h, Combinator.ofName?_name] at hname
  exact (Option.some.inj hname).symm

theorem Operand.tokens_append_ne_lambda (a : Operand) (mark : Char) (ts ts' : List Token) :
    a.tokens ++ ts ≠ .lambda mark :: ts' := by
  cases a <;> simp [Operand.tokens]

theorem words_append_inj {words words' : List (List Char)} {ts ts' : List Token}
    (h : words.map .word ++ .dot :: ts = words'.map .word ++ .dot :: ts') :
    words = words' ∧ ts = ts' := by
  induction words generalizing words' with
  | nil =>
      cases words' with
      | nil => exact ⟨rfl, (List.cons.inj h).2⟩
      | cons letters' words' => cases (List.cons.inj h).1
  | cons letters words ih =>
      cases words' with
      | nil => cases (List.cons.inj h).1
      | cons letters' words' =>
          obtain ⟨hletters, hrest⟩ := List.cons.inj h
          obtain ⟨rfl, hts⟩ := ih hrest
          cases hletters
          exact ⟨rfl, hts⟩

mutual

/-- An operand ends where its tokens say, whatever follows them. -/
theorem Operand.tokens_append_inj (a a' : Operand) {ts ts' : List Token}
    (h : a.tokens ++ ts = a'.tokens ++ ts') : a = a' ∧ ts = ts' := by
  cases a with
  | group p =>
      cases a' with
      | group p' =>
          simp only [Operand.tokens, List.cons_append, List.append_assoc, List.cons.injEq,
            true_and] at h
          obtain ⟨rfl, hts⟩ := p.tokens_append_inj p' (stops_rightParen ts) (stops_rightParen ts') h
          exact ⟨rfl, (List.cons.inj hts).2⟩
      | _ => simp [Operand.tokens] at h
  | letter c =>
      cases a' with
      | letter c' =>
          obtain ⟨rfl, rfl⟩ : c = c' ∧ ts = ts' := by simpa [Operand.tokens] using h
          exact ⟨rfl, rfl⟩
      | combinator c' =>
          have hname : [c] = c'.name.toList := by
            simp only [Operand.tokens, List.cons_append, List.cons.injEq, Token.word.injEq] at h
            exact h.1
          exact absurd hname.symm (name_ne_letter c' c)
      | _ => simp [Operand.tokens] at h
  | combinator c =>
      cases a' with
      | letter c' =>
          have hname : c.name.toList = [c'] := by
            simp only [Operand.tokens, List.cons_append, List.cons.injEq, Token.word.injEq] at h
            exact h.1
          exact absurd hname (name_ne_letter c c')
      | combinator c' =>
          obtain ⟨hname, rfl⟩ : c.name.toList = c'.name.toList ∧ ts = ts' := by
            simpa [Operand.tokens] using h
          exact ⟨congrArg Operand.combinator (name_toList_injective hname), rfl⟩
      | _ => simp [Operand.tokens] at h
  | numeral digits =>
      cases a' with
      | numeral digits' =>
          obtain ⟨rfl, rfl⟩ : digits = digits' ∧ ts = ts' := by simpa [Operand.tokens] using h
          exact ⟨rfl, rfl⟩
      | _ => simp [Operand.tokens] at h

/-- A phrase ends where no operand follows. -/
theorem Phrase.tokens_append_inj (p p' : Phrase) {ts ts' : List Token} (hts : Stops ts)
    (hts' : Stops ts') (h : p.tokens ++ ts = p'.tokens ++ ts') : p = p' ∧ ts = ts' := by
  cases p with
  | last a =>
      cases p' with
      | last a' =>
          simp only [Phrase.tokens] at h
          obtain ⟨rfl, rfl⟩ := a.tokens_append_inj a' h
          exact ⟨rfl, rfl⟩
      | abstraction mark first more body =>
          simp only [Phrase.tokens] at h
          exact absurd h (a.tokens_append_ne_lambda mark _ _)
      | cons a' tail =>
          simp only [Phrase.tokens, List.append_assoc] at h
          obtain ⟨-, rfl⟩ := a.tokens_append_inj a' h
          exact absurd hts (tail.startsOperand_tokens ts')
  | abstraction mark first more body =>
      cases p' with
      | last a' =>
          simp only [Phrase.tokens] at h
          exact absurd h.symm (a'.tokens_append_ne_lambda mark _ _)
      | abstraction mark' first' more' body' =>
          simp only [Phrase.tokens, List.cons_append, List.append_assoc, List.cons.injEq,
            Token.lambda.injEq] at h
          obtain ⟨rfl, h⟩ := h
          obtain ⟨hwords, hbody⟩ := words_append_inj h
          cases hwords
          obtain ⟨rfl, rfl⟩ := body.tokens_append_inj body' hts hts' hbody
          exact ⟨rfl, rfl⟩
      | cons a' tail =>
          simp only [Phrase.tokens, List.append_assoc] at h
          exact absurd h.symm (a'.tokens_append_ne_lambda mark _ _)
  | cons a tail =>
      cases p' with
      | last a' =>
          simp only [Phrase.tokens, List.append_assoc] at h
          obtain ⟨-, rfl⟩ := a.tokens_append_inj a' h
          exact absurd hts' (tail.startsOperand_tokens ts)
      | abstraction mark first more body =>
          simp only [Phrase.tokens, List.append_assoc] at h
          exact absurd h (a.tokens_append_ne_lambda mark _ _)
      | cons a' tail' =>
          simp only [Phrase.tokens, List.append_assoc] at h
          obtain ⟨rfl, htail⟩ := a.tokens_append_inj a' h
          obtain ⟨rfl, rfl⟩ := tail.tokens_append_inj tail' hts hts' htail
          exact ⟨rfl, rfl⟩

end

/-- The grammar is unambiguous. -/
theorem Phrase.tokens_injective : Function.Injective Phrase.tokens := by
  intro p p' h
  have hend : Stops [] := nofun
  exact (p.tokens_append_inj p' hend hend (congrArg (· ++ []) h)).1

/-! ## Whole texts -/

/-- What is read to the end is read. -/
theorem ReadsTo.ofTokens {ts : List Token} {t : Term} (h : ReadsTo none ts t []) :
    ofTokens ts = .ok t := by
  have hne : ts ≠ [] := by
    rintro rfl
    cases h
  obtain ⟨⟨rest, _⟩, ht, hrest⟩ := h.exists_readTerm
  dsimp only at hrest
  subst hrest
  rw [Surface.ofTokens, if_neg (by simpa using hne), ht]
  rfl

/-- A token sequence without empty words is read as a term if and only if it is that of a
phrase of the term. -/
theorem ofTokens_eq_ok_iff {ts : List Token} {t : Term} (hwords : .word [] ∉ ts) :
    ofTokens ts = .ok t ↔ ∃ p : Phrase, p.tokens = ts ∧ p.term = t := by
  constructor
  · intro h
    obtain ⟨p, hp, ht⟩ := (readsTo_of_ofTokens h).readsPhrase.of_none
    exact ⟨p, by rw [hp, List.append_nil], ht⟩
  · rintro ⟨p, rfl, rfl⟩
    have hread : ReadsTo none (p.tokens ++ []) p.term [] := p.readsTo hwords nofun
    rw [List.append_nil] at hread
    exact hread.ofTokens

/-- A word that a text can be cut into has a letter. -/
theorem word_nil_notMem_of_cut {ts : List Token} (h : ∀ token ∈ ts, token.Cut) :
    .word [] ∉ ts := by
  intro hmem
  exact (h _ hmem).1 rfl

theorem word_nil_notMem_of_cutFrom {start : Nat} {cs : List Char}
    {placed : List (Text.Placed Token)} (h : cutFrom start cs = .ok placed) :
    .word [] ∉ placed.map (·.token) :=
  word_nil_notMem_of_cut (List.forall_mem_map.mpr (cut_of_cutFrom h))

/-- The definition of a combinator is read as its term. -/
theorem ofText_definition (c : Combinator) : ofText c.definition = .ok c.term := by
  cases c <;> decide +kernel

/-- **The texts that are read are those of the grammar.**  A text that can be cut into
tokens is read as a term if and only if they are the tokens of a phrase of the term; no
two phrases have the same tokens; and the term of a combinator is what its definition is
read as.  White space between the tokens has no say: another text with the same tokens is
read as the same term, or both are refused for the same mistake at the same token. -/
theorem ofText_eq_ok_iff_phrase {s : String} {placed : List (Text.Placed Token)}
    (hlex : lex s = .ok placed) :
    (∀ t, ofText s = .ok t ↔ ∃ p : Phrase, p.tokens = placed.map (·.token) ∧ p.term = t) ∧
      Function.Injective Phrase.tokens ∧
      (∀ c : Combinator, ofText c.definition = .ok c.term) ∧
      ∀ s' placed', lex s' = .ok placed' → placed'.map (·.token) = placed.map (·.token) →
        (∃ t, ofText s = .ok t ∧ ofText s' = .ok t) ∨
          ∃ kind left,
            ofText s = .error (.mistake s (Text.Placed.place placed s.length left) kind) ∧
            ofText s' = .error (.mistake s' (Text.Placed.place placed' s'.length left) kind) := by
  refine ⟨?_, Phrase.tokens_injective, ofText_definition, ?_⟩
  · intro t
    have hwords : .word [] ∉ placed.map (·.token) :=
      word_nil_notMem_of_cutFrom (mapError_eq_ok_iff.mp hlex)
    rw [ofText, hlex]
    exact mapError_eq_ok_iff.trans (ofTokens_eq_ok_iff hwords)
  · intro s' placed' hlex' htokens
    rw [ofText, ofText, hlex, hlex']
    dsimp only
    rw [htokens]
    cases ofTokens (placed.map (·.token)) with
    | ok t => exact .inl ⟨t, rfl, rfl⟩
    | error e => exact .inr ⟨e.1, e.2.length, rfl, rfl⟩

/-- The body of the abstraction reaches to the end. -/
theorem ofText_eq_ok_iff_phrase_greedy :
    ofText "x λy z.y z" =
      .ok (.app (.var "x") (.lam "y" (.lam "z" (.app (.var "y") (.var "z"))))) := by
  have hlex : lex "x λy z.y z" =
      .ok [⟨.word ['x'], 0⟩, ⟨.lambda 'λ', 2⟩, ⟨.word ['y'], 3⟩, ⟨.word ['z'], 5⟩, ⟨.dot, 6⟩,
        ⟨.word ['y'], 7⟩, ⟨.word ['z'], 9⟩] := by decide +kernel
  apply ((ofText_eq_ok_iff_phrase hlex).1 _).mpr
  exact ⟨.cons (.letter 'x') (.abstraction 'λ' ['y'] [['z']]
    (.cons (.letter 'y') (.last (.letter 'z')))), rfl, rfl⟩

end BinaryLambda.Surface
