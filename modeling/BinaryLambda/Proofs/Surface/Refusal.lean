import BinaryLambda.Proofs.Diagnostic
import BinaryLambda.Proofs.Surface.Grammar
import BinaryLambda.Proofs.Term.Reading

set_option autoImplicit false

/-!
# Surface syntax: where reading fails

Every text is read as a term, or refused at the first thing in it that cannot be right
(`read_or_refused`).  A character outside the syntax is that thing if there is one.  If not,
the tokens are read from left to right: those before the failure begin an accepted sequence,
and together with the next one they do not.

As for terms of the core language, the induction follows the reading (`FailsBetween`).  What
completes the tokens before a failure is a phrase of the grammar, and the tokens of an
operand are passed whatever follows them, so a failure behind an operand is a failure of the
whole.
-/

namespace BinaryLambda.Surface

/-! ## Failures of reading -/

/-- The tokens before a failure and those from it on, `left` being read already.  A text has
tokens that complete the first to a phrase, and reading fails as soon as the next token
follows them. -/
structure FailsBetween (left : Option Term) (front rest : List Token) : Prop where
  completes : ∃ more, (∀ token ∈ more, token.Cut) ∧ ∃ p : Phrase, p.tokens = front ++ more
  fails : ∀ token ∈ rest.head?, ∀ other, ∃ e, readTerm left (front ++ token :: other) = .error e

/-- The phrase of one letter. -/
def letterA : Phrase := .last (.letter 'a')

theorem tokens_letterA : letterA.tokens = [.word ['a']] := by
  rw [letterA, Phrase.tokens, Operand.tokens]

theorem cut_letterA : (Token.word ['a']).Cut :=
  ⟨List.cons_ne_nil _ _, List.forall_mem_singleton.mpr rfl⟩

/-- A dot and a letter complete the parameters of an abstraction. -/
theorem cut_body : ∀ token ∈ [Token.dot, .word ['a']], token.Cut :=
  List.forall_mem_cons.mpr ⟨trivial, List.forall_mem_singleton.mpr cut_letterA⟩

/-- What follows the next token does not change which one it is. -/
theorem head?_cons_of_mem {rest : List Token} {token : Token} (h : token ∈ rest.head?)
    (other : List Token) : (token :: other).head? = rest.head? := by
  rw [List.head?_cons]
  exact h.symm

/-- A phrase is read before tokens that do not go on with it. -/
theorem Phrase.exists_readTerm (p : Phrase) (hwords : .word [] ∉ p.tokens) {rest : List Token}
    (hrest : Stops rest) :
    ∃ r, readTerm none (p.tokens ++ rest) = .ok (p.term, r) ∧ r.1 = rest := by
  have hread : ReadsTo none (p.tokens ++ rest) p.term rest := p.readsTo hwords hrest
  exact hread.exists_readTerm

/-! ### Operands -/

/-- A failure behind an operand is a failure of the whole. -/
theorem Operand.readTerm_eq_error (a : Operand) {left : Option Term} {ts : List Token} {e : Stop}
    (hwords : .word [] ∉ a.tokens) (h : readTerm (some (applied left a.term)) ts = .error e) :
    readTerm left (a.tokens ++ ts) = .error e := by
  cases a with
  | group p =>
      rw [Operand.tokens] at hwords ⊢
      rw [Operand.term] at h
      have hinner : .word [] ∉ p.tokens := fun hmem => hwords (by simp [hmem])
      obtain ⟨⟨closing, _⟩, hp, hclosing⟩ := p.exists_readTerm hinner (stops_rightParen ts)
      dsimp only at hclosing
      subst hclosing
      rw [List.cons_append, List.append_assoc, List.singleton_append, readTerm, hp]
      dsimp only
      rw [Phrase.term, h]
  | letter c =>
      rw [Operand.term] at h
      rw [Operand.tokens, List.singleton_append, readTerm, wordTerm?]
      dsimp only
      rw [h]
  | combinator c =>
      rw [Operand.term] at h
      rw [Operand.tokens, List.singleton_append, readTerm, wordTerm?_name]
      dsimp only
      rw [h]
  | numeral digits =>
      rw [Operand.term] at h
      rw [Operand.tokens, List.singleton_append, readTerm, h]

/-- A letter completes whatever waits for a phrase. -/
theorem FailsBetween.of_nil {left : Option Term} {rest : List Token}
    (h : ∀ token ∈ rest.head?, ∀ other, ∃ e, readTerm left (token :: other) = .error e) :
    FailsBetween left [] rest where
  completes := ⟨[.word ['a']], List.forall_mem_singleton.mpr cut_letterA, letterA, tokens_letterA⟩
  fails := h

theorem FailsBetween.operand {left : Option Term} {front rest : List Token} (a : Operand)
    (hwords : .word [] ∉ a.tokens)
    (h : FailsBetween (some (applied left a.term)) front rest) :
    FailsBetween left (a.tokens ++ front) rest where
  completes := by
    obtain ⟨more, hmore, p, hp⟩ := h.completes
    refine ⟨more, hmore, .cons a p, ?_⟩
    rw [Phrase.tokens, hp, List.append_assoc]
  fails token htoken other := by
    obtain ⟨e, he⟩ := h.fails token htoken other
    refine ⟨e, ?_⟩
    rw [List.append_assoc]
    exact a.readTerm_eq_error hwords he

/-! ### Groups -/

theorem FailsBetween.group {left : Option Term} {front rest : List Token}
    (h : FailsBetween none front rest) : FailsBetween left (.leftParen :: front) rest where
  completes := by
    obtain ⟨more, hmore, p, hp⟩ := h.completes
    refine ⟨more ++ [.rightParen], ?_, .last (.group p), ?_⟩
    · exact List.forall_mem_append.mpr ⟨hmore, List.forall_mem_singleton.mpr trivial⟩
    · rw [Phrase.tokens, Operand.tokens, hp, List.cons_append, List.append_assoc]
  fails token htoken other := by
    obtain ⟨e, he⟩ := h.fails token htoken other
    refine ⟨e, ?_⟩
    rw [List.cons_append, readTerm, he]

/-- After the phrase of a group comes a parenthesis. -/
theorem FailsBetween.of_rightParen {left : Option Term} (p : Phrase)
    (hwords : .word [] ∉ p.tokens) {rest : List Token} (hrest : Stops rest)
    (h : .rightParen ∉ rest.head?) : FailsBetween left (.leftParen :: p.tokens) rest where
  completes := by
    refine ⟨[.rightParen], List.forall_mem_singleton.mpr trivial, .last (.group p), ?_⟩
    rw [Phrase.tokens, Operand.tokens, List.cons_append]
  fails token htoken other := by
    have hstops : Stops (token :: other) := by
      rw [Stops, head?_cons_of_mem htoken]
      exact hrest
    obtain ⟨⟨closing, _⟩, hp, hclosing⟩ := p.exists_readTerm hwords hstops
    dsimp only at hclosing
    subst hclosing
    rw [List.cons_append, readTerm, hp]
    cases token with
    | rightParen => exact absurd htoken h
    | _ => exact ⟨_, rfl⟩

/-! ### Abstractions -/

section

variable {left : Option Term} {mark : Char} {inner rest : List Token} {parameters : List Char}

theorem readTerm_eq_missingParameter (h : readParameters inner = ([], rest)) :
    readTerm left (.lambda mark :: inner) = .error (.missingParameter, rest) := by
  rw [readTerm]
  split
  · rename_i hp
    rw [h] at hp
    cases hp
    rfl
  · rename_i hne hp
    rw [h] at hp
    cases hp
    exact (hne rfl).elim
  · rename_i hne _ hp
    rw [h] at hp
    cases hp
    exact (hne rfl).elim

theorem readTerm_eq_missingDot (h : readParameters inner = (parameters, rest))
    (hne : parameters ≠ []) (hdot : .dot ∉ rest.head?) :
    readTerm left (.lambda mark :: inner) = .error (.missingDot, rest) := by
  rw [readTerm]
  split
  · rename_i hp
    rw [h] at hp
    cases hp
    exact absurd rfl hne
  · rename_i hp
    rw [h] at hp
    cases hp
    exact absurd rfl hdot
  · rename_i hp
    rw [h] at hp
    cases hp
    rfl

theorem readTerm_eq_error_of_body {body : List Token} {e : Stop}
    (h : readParameters inner = (parameters, .dot :: body)) (hne : parameters ≠ [])
    (hbody : readTerm none body = .error e) :
    readTerm left (.lambda mark :: inner) = .error e := by
  rw [readTerm]
  split
  · rename_i hp
    rw [h] at hp
    cases hp
    exact absurd rfl hne
  · rename_i hp
    rw [h] at hp
    cases hp
    rw [hbody]
  · rename_i hdot hp
    rw [h] at hp
    cases hp
    exact (hdot _ rfl).elim

end

/-- The parameters end before a token that is no word. -/
theorem word_notMem_readParameters (ts : List Token) (letters : List Char) :
    .word letters ∉ (readParameters ts).2.head? := by
  fun_induction readParameters ts with
  | case1 _ rest more rest' h ih =>
      rw [h] at ih
      exact ih
  | case2 ts hword =>
      intro h
      obtain ⟨tail, rfl⟩ := List.head?_eq_some_iff.mp h
      exact hword letters tail rfl

/-- After the mark of an abstraction comes a word. -/
theorem FailsBetween.of_parameter {left : Option Term} (mark : Char) {rest : List Token}
    (hrest : ∀ letters, .word letters ∉ rest.head?) : FailsBetween left [.lambda mark] rest where
  completes := by
    refine ⟨[.word ['a'], .dot, .word ['a']], ?_, .abstraction mark ['a'] [] letterA, ?_⟩
    · exact List.forall_mem_cons.mpr ⟨cut_letterA, cut_body⟩
    · rw [Phrase.tokens, tokens_letterA]
      rfl
  fails token htoken other := by
    have hparameters : readParameters (token :: other) = ([], token :: other) := by
      rw [← head?_cons_of_mem htoken other] at hrest
      exact readParameters_words [] hrest
    exact ⟨_, readTerm_eq_missingParameter hparameters⟩

/-- After the parameters comes a dot, or another word. -/
theorem FailsBetween.of_dot {left : Option Term} (mark : Char) (first : List Char)
    (more : List (List Char)) (hne : (first :: more).flatten ≠ []) {rest : List Token}
    (hrest : ∀ letters, .word letters ∉ rest.head?) (hdot : .dot ∉ rest.head?) :
    FailsBetween left (.lambda mark :: (first :: more).map .word) rest where
  completes := by
    refine ⟨[.dot, .word ['a']], cut_body, .abstraction mark first more letterA, ?_⟩
    rw [Phrase.tokens, tokens_letterA, List.cons_append]
  fails token htoken other := by
    rw [← head?_cons_of_mem htoken other] at hrest hdot
    have hparameters := readParameters_words (first :: more) hrest
    exact ⟨_, readTerm_eq_missingDot hparameters hne hdot⟩

theorem FailsBetween.abstraction {left : Option Term} (mark : Char) (first : List Char)
    (more : List (List Char)) (hne : (first :: more).flatten ≠ []) {front rest : List Token}
    (h : FailsBetween none front rest) :
    FailsBetween left (.lambda mark :: ((first :: more).map .word ++ .dot :: front)) rest where
  completes := by
    obtain ⟨more', hmore, p, hp⟩ := h.completes
    refine ⟨more', hmore, .abstraction mark first more p, ?_⟩
    rw [Phrase.tokens, hp, List.cons_append, List.append_assoc, List.cons_append]
  fails token htoken other := by
    obtain ⟨e, he⟩ := h.fails token htoken other
    refine ⟨e, ?_⟩
    rw [List.cons_append, List.append_assoc, List.cons_append]
    have hparameters := readParameters_words (first :: more)
      (fun letters => word_notMem_dot letters (front ++ token :: other))
    exact readTerm_eq_error_of_body hparameters hne he

/-! ### The whole reading -/

/-- Parameters that are read are those of some words. -/
theorem exists_words_of_readParameters {ts rest : List Token} {parameters : List Char}
    (h : readParameters ts = (parameters, rest)) (hne : parameters ≠ []) :
    ∃ first more, ts = (first :: more).map .word ++ rest ∧ (first :: more).flatten ≠ [] := by
  obtain ⟨words, hts, rfl⟩ := eq_words_of_readParameters h
  cases words with
  | nil => exact absurd rfl hne
  | cons first more => exact ⟨first, more, hts, hne⟩

/-- Where no parameter is read, there is no word. -/
theorem eq_of_readParameters_nil {ts rest : List Token} (hwords : .word [] ∉ ts)
    (h : readParameters ts = ([], rest)) : ts = rest := by
  obtain ⟨words, hts, hflatten⟩ := eq_words_of_readParameters h
  cases words with
  | nil => exact hts
  | cons first more =>
      obtain ⟨rfl, -⟩ := List.append_eq_nil_iff.mp hflatten
      exact absurd (by rw [hts]; exact .head _) hwords

/-- What is read is a phrase, and the reading stops behind it. -/
theorem exists_phrase_of_readTerm {ts : List Token} {t : Term}
    {r : { rest : List Token // rest.length ≤ ts.length }} (h : readTerm none ts = .ok (t, r)) :
    ∃ p : Phrase, ts = p.tokens ++ r.1 ∧ p.term = t ∧ Stops r.1 := by
  have hread : ReadsTo none ts t r.1 := readsTo_of_readTerm h
  obtain ⟨p, hts, ht⟩ := hread.readsPhrase.of_none
  exact ⟨p, hts, ht, hread.stops⟩

/-- Where no operand begins, reading ends with what it has. -/
theorem readTerm_ne_error {t : Term} {ts : List Token} {e : Stop} (h : Stops ts) :
    readTerm (some t) ts ≠ .error e := by
  intro he
  obtain ⟨r, hr, -⟩ := (ReadsTo.finish t h).exists_readTerm
  rw [he] at hr
  cases hr

/-- A missing term is missing where it was looked for. -/
theorem noTermAt_snd (ts : List Token) : (noTermAt ts).2 = ts := by
  cases ts <;> rfl

/-- A failure behind an operand in front of the tokens. -/
theorem exists_failsBetween_operand {left : Option Term} {ts tail rest : List Token}
    {operand : Term} (a : Operand) (hts : ts = a.tokens ++ tail) (hoperand : a.term = operand)
    (hwords : .word [] ∉ ts)
    (h : .word [] ∉ tail → ∃ front, tail = front ++ rest ∧
      FailsBetween (some (applied left operand)) front rest) :
    ∃ front, ts = front ++ rest ∧ FailsBetween left front rest := by
  subst hts hoperand
  rw [List.mem_append, not_or] at hwords
  obtain ⟨front, rfl, hfails⟩ := h hwords.2
  exact ⟨a.tokens ++ front, (List.append_assoc ..).symm, hfails.operand a hwords.1⟩

/-- Where reading fails, it fails between the tokens before and those it keeps. -/
theorem failsBetween_of_readTerm {left : Option Term} {ts : List Token} {e : Stop}
    (hwords : .word [] ∉ ts) (h : readTerm left ts = .error e) :
    ∃ front, ts = front ++ e.2 ∧ FailsBetween left front e.2 := by
  fun_induction readTerm left ts generalizing e with
  | case1 left inner e' he ih =>
      cases h
      obtain ⟨front, hfront, hfails⟩ := ih (List.not_mem_of_not_mem_cons hwords) he
      exact ⟨_, congrArg (_ :: ·) hfront, hfails.group⟩
  | case2 left inner operand tail _ e' he _ hoperand _ ih =>
      cases h
      obtain ⟨p, hinner, hp, -⟩ := exists_phrase_of_readTerm hoperand
      have hts : .leftParen :: inner = (Operand.group p).tokens ++ tail := by
        rw [hinner, Operand.tokens, List.cons_append, List.append_assoc, List.singleton_append]
      have hterm : (Operand.group p).term = operand := by
        rw [Operand.term]
        exact hp
      exact exists_failsBetween_operand _ hts hterm hwords (fun htail => ih htail he)
  | case4 left inner operand rest _ hparen hlt hoperand ih =>
      cases h
      obtain ⟨p, hinner, -, hstops⟩ := exists_phrase_of_readTerm hoperand
      dsimp only at hinner hstops
      have hp : .word [] ∉ p.tokens := fun hmem => hwords (by simp [hinner, hmem])
      refine ⟨_, congrArg (_ :: ·) hinner, .of_rightParen p hp hstops ?_⟩
      intro hhead
      obtain ⟨tail, rfl⟩ := List.head?_eq_some_iff.mp hhead
      exact hparen tail hlt rfl HEq.rfl
  | case5 left mark inner _ rest hparameters =>
      cases h
      obtain rfl := eq_of_readParameters_nil (List.not_mem_of_not_mem_cons hwords) hparameters
      have hrest := word_notMem_readParameters inner
      rw [hparameters] at hrest
      exact ⟨[.lambda mark], rfl, .of_parameter mark hrest⟩
  | case6 left mark inner _ parameters body hne hparameters e' he ih =>
      cases h
      obtain ⟨first, more, rfl, hflatten⟩ := exists_words_of_readParameters hparameters hne
      obtain ⟨front, rfl, hfails⟩ := ih (fun hmem => hwords (by simp [hmem])) he
      refine ⟨_, ?_, hfails.abstraction mark first more hflatten⟩
      simp
  | case7 left mark inner _ parameters body hne hparameters b rest _ hb e' he =>
      -- The body has taken all the operands there are.
      obtain ⟨p, -, -, hstops⟩ := exists_phrase_of_readTerm hb
      exact absurd he (readTerm_ne_error hstops)
  | case9 left mark inner _ parameters rest hne hdot hparameters =>
      cases h
      have hrest := word_notMem_readParameters inner
      rw [hparameters] at hrest
      obtain ⟨first, more, rfl, hflatten⟩ := exists_words_of_readParameters hparameters hne
      refine ⟨_, rfl, .of_dot mark first more hflatten hrest ?_⟩
      intro hhead
      obtain ⟨tail, rfl⟩ := List.head?_eq_some_iff.mp hhead
      exact hdot tail rfl
  | case10 left letters rest hletters =>
      cases h
      refine ⟨[], rfl, .of_nil ?_⟩
      rintro _ ⟨⟩ other
      exact ⟨_, by rw [readTerm, hletters]⟩
  | case11 left letters tail operand hoperand e' he ih =>
      cases h
      obtain ⟨a, ha, hterm⟩ := exists_operand_of_wordTerm? hoperand
      have hts : .word letters :: tail = a.tokens ++ tail := by rw [ha, List.singleton_append]
      exact exists_failsBetween_operand a hts hterm hwords (fun htail => ih htail he)
  | case13 left digits tail e' he ih =>
      cases h
      have hts : .numeral digits :: tail = (Operand.numeral digits).tokens ++ tail := by
        rw [Operand.tokens, List.singleton_append]
      have hterm : (Operand.numeral digits).term = .church (Text.digitsValue digits) := by
        rw [Operand.term]
      exact exists_failsBetween_operand _ hts hterm hwords (fun htail => ih htail he)
  | case16 rest hparen hlambda hword hnumeral =>
      cases h
      rw [noTermAt_snd]
      refine ⟨[], rfl, .of_nil ?_⟩
      intro token htoken other
      obtain ⟨tail, rfl⟩ := List.head?_eq_some_iff.mp htoken
      cases token with
      | lambda mark => exact (hlambda mark tail rfl).elim
      | leftParen => exact (hparen tail rfl).elim
      | word letters => exact (hword letters tail rfl).elim
      | numeral digits => exact (hnumeral digits tail rfl).elim
      | dot => exact ⟨_, by rw [readTerm]; all_goals simp⟩
      | rightParen => exact ⟨_, by rw [readTerm]; all_goals simp⟩
  | _ => cases h

/-! ## Accepted sequences -/

/-- The tokens of some text that is read. -/
def Accepted (ts : List Token) : Prop :=
  ∃ s placed t, lex s = .ok placed ∧ placed.map (·.token) = ts ∧ ofText s = .ok t

/-- A text that can be cut is read as its tokens are. -/
theorem ofText_eq_ok_iff {s : String} {placed : List (Text.Placed Token)}
    (hlex : lex s = .ok placed) {t : Term} :
    ofText s = .ok t ↔ ofTokens (placed.map (·.token)) = .ok t := by
  rw [ofText, hlex]
  exact mapError_eq_ok_iff

theorem cut_of_lex {s : String} {placed : List (Text.Placed Token)} (hlex : lex s = .ok placed) :
    ∀ token ∈ placed.map (·.token), token.Cut :=
  List.forall_mem_map.mpr (cut_of_cutFrom (mapError_eq_ok_iff.mp hlex))

/-- The accepted sequences are those of the phrases whose tokens can be cut from a text. -/
theorem accepted_iff {ts : List Token} :
    Accepted ts ↔ (∀ token ∈ ts, token.Cut) ∧ ∃ p : Phrase, p.tokens = ts := by
  constructor
  · rintro ⟨s, placed, t, hlex, rfl, ht⟩
    have hcut : ∀ token ∈ placed.map (·.token), token.Cut := cut_of_lex hlex
    have hread := (ofTokens_eq_ok_iff (word_nil_notMem_of_cut hcut)).mp
      ((ofText_eq_ok_iff hlex).mp ht)
    obtain ⟨p, hp, -⟩ := hread
    exact ⟨hcut, p, hp⟩
  · rintro ⟨hcut, p, rfl⟩
    obtain ⟨placed, hplaced, htokens⟩ := exists_cutFrom_apart hcut 0
    have hlex : lex (String.ofList (apart p.tokens)) = .ok placed := by
      rw [lex, String.toList_ofList]
      exact mapError_eq_ok_iff.mpr hplaced
    refine ⟨_, placed, p.term, hlex, htokens, (ofText_eq_ok_iff hlex).mpr ?_⟩
    rw [htokens]
    exact (ofTokens_eq_ok_iff (word_nil_notMem_of_cut hcut)).mpr ⟨p, rfl, rfl⟩

section

variable {left : Option Term} {front rest : List Token}

theorem FailsBetween.begins (h : FailsBetween left front rest)
    (hfront : ∀ token ∈ front, token.Cut) : Text.Begins Accepted front := by
  obtain ⟨more, hmore, hp⟩ := h.completes
  exact ⟨more, accepted_iff.mpr ⟨List.forall_mem_append.mpr ⟨hfront, hmore⟩, hp⟩⟩

/-- The tokens of a phrase are read, so nothing goes on from a failure. -/
theorem FailsBetween.not_begins (h : FailsBetween none front rest) :
    ∀ token ∈ rest.head?, ¬ Text.Begins Accepted (front ++ [token]) := by
  rintro token htoken ⟨more, haccepted⟩
  obtain ⟨e, he⟩ := h.fails token htoken more
  obtain ⟨hcut, p, hp⟩ := accepted_iff.mp haccepted
  rw [← hp] at hcut
  have hread := p.exists_readTerm (word_nil_notMem_of_cut hcut) stops_nil
  rw [hp, List.append_nil, List.append_assoc, List.singleton_append] at hread
  obtain ⟨r, hr, -⟩ := hread
  rw [he] at hr
  cases hr

/-- A whole phrase does not go on with a token that begins no operand. -/
theorem Phrase.not_begins (p : Phrase) (hrest : Stops rest) :
    ∀ token ∈ rest.head?, ¬ Text.Begins Accepted (p.tokens ++ [token]) := by
  rintro token htoken ⟨more, haccepted⟩
  obtain ⟨-, q, hq⟩ := accepted_iff.mp haccepted
  have hstops : Stops (token :: more) := by
    rw [Stops, head?_cons_of_mem htoken]
    exact hrest
  have htokens : p.tokens ++ token :: more = q.tokens ++ [] := by
    rw [hq, List.append_nil, List.append_assoc, List.singleton_append]
  cases (p.tokens_append_inj q hstops stops_nil htokens).2

end

/-- A sequence that is refused begins an accepted one before the tokens that are left, and
not any more together with the first of them. -/
theorem exists_front_of_ofTokens {ts : List Token} (hcut : ∀ token ∈ ts, token.Cut) {e : Stop}
    (h : ofTokens ts = .error e) :
    ∃ front, ts = front ++ e.2 ∧ Text.Begins Accepted front ∧
      ∀ token ∈ e.2.head?, ¬ Text.Begins Accepted (front ++ [token]) := by
  unfold ofTokens at h
  split_ifs at h with hempty
  · cases h
    obtain rfl := List.isEmpty_iff.mp hempty
    refine ⟨[], rfl, ⟨letterA.tokens, ?_⟩, nofun⟩
    rw [accepted_iff, List.nil_append, tokens_letterA]
    exact ⟨List.forall_mem_singleton.mpr cut_letterA, letterA, tokens_letterA⟩
  · split at h
    · rename_i e' he
      cases h
      obtain ⟨front, rfl, hfails⟩ := failsBetween_of_readTerm (word_nil_notMem_of_cut hcut) he
      have hfront := (List.forall_mem_append.mp hcut).1
      exact ⟨front, rfl, hfails.begins hfront, hfails.not_begins⟩
    · rename_i t rest _ ht
      split_ifs at h
      cases h
      obtain ⟨p, hp, -, hstops⟩ := exists_phrase_of_readTerm ht
      dsimp only at hp hstops
      rw [noTermAt_snd]
      refine ⟨p.tokens, hp, ⟨[], ?_⟩, p.not_begins hstops⟩
      rw [hp] at hcut
      rw [List.append_nil]
      exact accepted_iff.mpr ⟨(List.forall_mem_append.mp hcut).1, p, rfl⟩

/-- A sequence that is refused sticks at the tokens that are left. -/
theorem sticksAt_of_ofTokens {ts : List Token} (hcut : ∀ token ∈ ts, token.Cut) {e : Stop}
    (h : ofTokens ts = .error e) :
    e.2.length ≤ ts.length ∧ Text.SticksAt Accepted ts (ts.length - e.2.length) := by
  obtain ⟨front, hts, hbegins, hstuck⟩ := exists_front_of_ofTokens hcut h
  rw [hts, List.length_append, Nat.add_sub_cancel]
  exact ⟨Nat.le_add_left _ _, Text.sticksAt_of_append hbegins hstuck⟩

/-! ## Texts -/

/-- The diagnostic of a mistake marks the text from the place on, and it has a message. -/
theorem Fault.mistake_diagnostic_spec (s : String) (place : Nat) (kind : Mistake) :
    (Fault.mistake s place kind).diagnostic.topic = .grammar place ∧
      (Fault.mistake s place kind).diagnostic.subject = s ∧
      (Fault.mistake s place kind).diagnostic.start = place ∧
      (Fault.mistake s place kind).diagnostic.checked =
        .ok (Fault.mistake s place kind).diagnostic := by
  cases kind <;> exact ⟨rfl, rfl, rfl, Diagnostic.checked_marking _ _ rfl⟩

/-- What the place of a mistake says of the tokens of a text.  It is the end of the text if
they go on to an accepted sequence, and otherwise the start of the first token up to which
they do not. -/
structure PointsAt (s : String) (placed : List (Text.Placed Token)) (place : Nat) : Prop where
  of_begins : Text.Begins Accepted (placed.map (·.token)) → place = s.length
  of_not_begins : ¬ Text.Begins Accepted (placed.map (·.token)) →
    ∃ i p, placed[i]? = some p ∧ place = p.start ∧ p.token.chars <+: s.toList.drop place ∧
      ∀ n, Text.Begins Accepted ((placed.map (·.token)).take n) ↔ n ≤ i

theorem pointsAt_of_ofTokens {s : String} {placed : List (Text.Placed Token)}
    (hlex : lex s = .ok placed) {e : Stop} (h : ofTokens (placed.map (·.token)) = .error e) :
    PointsAt s placed (Text.Placed.place placed s.length e.2.length) := by
  obtain ⟨hleft, hsticks⟩ := sticksAt_of_ofTokens (cut_of_lex hlex) h
  constructor
  · intro hbegins
    have hend := hsticks.eq_length hbegins
    have hnone : e.2.length = 0 := by omega
    rw [hnone, Text.Placed.place_zero]
  · intro hbegins
    have hlt := hsticks.lt_length hbegins
    rw [List.length_map] at hlt hsticks
    obtain ⟨p, hp⟩ : ∃ p, placed[placed.length - e.2.length]? = some p :=
      ⟨_, List.getElem?_eq_getElem hlt⟩
    have hplace := Text.Placed.place_eq_start hp s.length
    obtain ⟨before, after, hs, hstart⟩ :=
      standsAt_of_cutFrom (mapError_eq_ok_iff.mp hlex) p (List.mem_of_getElem? hp)
    refine ⟨_, p, hp, hplace, ?_, hsticks.begins_take_iff hbegins⟩
    rw [hplace, hstart, Nat.zero_add, hs, List.drop_left]
    exact List.prefix_append _ _

/-- A text is refused for a character exactly if it cannot be cut. -/
theorem ofText_eq_stray_iff {s : String} {e : StrayCharacter} :
    ofText s = .error (.stray e) ↔ lex s = .error e := by
  rw [ofText]
  constructor
  · intro h
    split at h
    · rename_i e' hlex
      cases h
      exact hlex
    · obtain ⟨_, _, hmistake⟩ := mapError_eq_error_iff.mp h
      cases hmistake
  · intro h
    rw [h]

theorem firstStray_of_lex {s : String} {e : StrayCharacter} (h : lex s = .error e) :
    Text.FirstStray Belongs s.toList e.position e.character := by
  obtain ⟨stop, hcut, rfl⟩ := mapError_eq_error_iff.mp h
  exact (scans_cutFrom 0 s.toList).firstStray hcut

theorem exists_stray_iff (s : String) :
    (∃ e, ofText s = .error (.stray e)) ↔ ∃ c ∈ s.toList, ¬ Belongs c := by
  simp only [ofText_eq_stray_iff]
  exact (scans_cutFrom 0 s.toList).exists_mapError_iff _

/-- **Every text is read, or refused at the first thing that cannot be right.**  The term that
is read is that of a phrase with the tokens of the text, it has names of one letter, and it is
read back from the canonical text.  A character
outside the surface syntax is refused exactly if there is one, at the first of them.  Any
other refusal is a mistake in the grammar: at the end of the text if the tokens go on to an
accepted sequence, and otherwise at the start of the first token up to which they do not.
The diagnostics have a message and point there. -/
theorem read_or_refused (s : String) :
    ((∃ t, ofText s = .ok t ∧
        (∃ placed, ∃ p : Phrase,
          lex s = .ok placed ∧ p.tokens = placed.map (·.token) ∧ p.term = t) ∧
        t.Lettered ∧ canonical s = .ok t.text ∧ Term.ofText t.text = .ok t) ∨
      (∃ e, ofText s = .error (.stray e) ∧
        Text.FirstStray Belongs s.toList e.position e.character ∧
        e.diagnostic.topic = .alphabet ∧ e.diagnostic.start = e.position ∧
        e.diagnostic.checked = .ok e.diagnostic) ∨
      ∃ placed place kind, lex s = .ok placed ∧ ofText s = .error (.mistake s place kind) ∧
        PointsAt s placed place ∧
        (Fault.mistake s place kind).diagnostic.topic = .grammar place ∧
        (Fault.mistake s place kind).diagnostic.start = place ∧
        (Fault.mistake s place kind).diagnostic.checked =
          .ok (Fault.mistake s place kind).diagnostic) ∧
      ((∃ e, ofText s = .error (.stray e)) ↔ ∃ c ∈ s.toList, ¬ Belongs c) := by
  refine ⟨?_, exists_stray_iff s⟩
  cases hlex : lex s with
  | error e =>
      obtain ⟨htopic, -, hstart, hchecked⟩ := e.diagnostic_spec
      right; left
      exact ⟨e, ofText_eq_stray_iff.mpr hlex, firstStray_of_lex hlex, htopic, hstart, hchecked⟩
  | ok placed =>
      have hcut : ∀ token ∈ placed.map (·.token), token.Cut := cut_of_lex hlex
      cases hread : ofTokens (placed.map (·.token)) with
      | ok t =>
          have ht : ofText s = .ok t := (ofText_eq_ok_iff hlex).mpr hread
          have hletters : t.Lettered := lettered_of_ofText ht
          have hcanonical : canonical s = .ok t.text := map_eq_ok_iff.mpr ⟨t, ht, rfl⟩
          obtain ⟨p, hp, hterm⟩ := (ofTokens_eq_ok_iff (word_nil_notMem_of_cut hcut)).mp hread
          left
          exact ⟨t, ht, ⟨placed, p, rfl, hp, hterm⟩, hletters, hcanonical, hletters.ofText_text⟩
      | error e =>
          have hmistake : ofText s =
              .error (.mistake s (Text.Placed.place placed s.length e.2.length) e.1) := by
            rw [ofText, hlex]
            exact mapError_eq_error_iff.mpr ⟨e, hread, rfl⟩
          obtain ⟨htopic, -, hstart, hchecked⟩ := Fault.mistake_diagnostic_spec s
            (Text.Placed.place placed s.length e.2.length) e.1
          right; right
          exact ⟨placed, _, _, rfl, hmistake, pointsAt_of_ofTokens hlex hread, htopic, hstart,
            hchecked⟩

/-- A word may be a parameter and still name no term. -/
example : ofText "λfoo.foo" = .error (.mistake "λfoo.foo" 5 (.unknownName ['f', 'o', 'o'])) := by
  cbv

end BinaryLambda.Surface
