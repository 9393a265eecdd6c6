import BinaryLambda.Proofs.Surface.Cutting
import BinaryLambda.Proofs.Term.Letters
import BinaryLambda.Surface.Parser

set_option autoImplicit false

/-!
# Surface syntax: what is read

`ReadsTo` has one rule for each kind of operand that a term may go on with, so a
property of what is read is proved by an induction on the rules.  The names in a term
are letters of the words, the binders of combinators and the two binders of numerals,
so the surface syntax yields terms of letters (`lettered_of_ofText`).
-/

namespace BinaryLambda

/-! ## The names of numerals and combinators -/

theorem Term.lettered_church (n : Nat) : (Term.church n).Lettered := by
  have hbody : (applications "f" "x" n).Lettered := by
    induction n with
    | zero => exact lettered_var.mpr (by decide)
    | succ n ih => exact lettered_app.mpr ⟨lettered_var.mpr (by decide), ih⟩
  exact lettered_lam.mpr ⟨by decide, lettered_lam.mpr ⟨by decide, hbody⟩⟩

theorem Combinator.lettered_term (c : Combinator) : c.term.Lettered := by
  cases c <;> decide

namespace Surface

open Term

/-! ## The ways to succeed -/

/-- A token with which an operand begins. -/
def Token.startsOperand : Token → Bool
  | lambda _ | leftParen | word _ | numeral _ => true
  | dot | rightParen => false

/-- A term is read at the front of a token sequence, the operands before it being
applied already, and a rest is left. -/
inductive ReadsTo : Option Term → List Token → Term → List Token → Prop where
  | finish (t : Term) {rest : List Token} : (∀ token ∈ rest.head?, token.startsOperand = false) →
      ReadsTo (some t) rest t rest
  | group {left : Option Term} {inner rest rest' : List Token} {operand t : Term} :
      ReadsTo none inner operand (.rightParen :: rest) →
      ReadsTo (some (applied left operand)) rest t rest' →
      ReadsTo left (.leftParen :: inner) t rest'
  | abstraction {left : Option Term} {mark : Char} {inner body rest rest' : List Token}
      {parameters : List Char} {b t : Term} :
      readParameters inner = (parameters, .dot :: body) → parameters ≠ [] →
      ReadsTo none body b rest →
      ReadsTo (some (applied left (abstractAll parameters b))) rest t rest' →
      ReadsTo left (.lambda mark :: inner) t rest'
  | word {left : Option Term} {letters : List Char} {rest rest' : List Token} {operand t : Term} :
      wordTerm? letters = some operand →
      ReadsTo (some (applied left operand)) rest t rest' →
      ReadsTo left (.word letters :: rest) t rest'
  | numeral {left : Option Term} {digits : List Char} {rest rest' : List Token} {t : Term} :
      ReadsTo (some (applied left (.church (Text.digitsValue digits)))) rest t rest' →
      ReadsTo left (.numeral digits :: rest) t rest'

/-- A reading that succeeds does so by the rules. -/
theorem readsTo_of_readTerm {left : Option Term} {ts : List Token} {t : Term}
    {r : { rest : List Token // rest.length ≤ ts.length }} (h : readTerm left ts = .ok (t, r)) :
    ReadsTo left ts t r.1 := by
  fun_induction readTerm left ts generalizing t with
  | case3 left inner operand rest _ u rest' _ hu _ hoperand ihoperand ihu =>
      cases h
      exact .group (ihoperand hoperand) (ihu hu)
  | case8 left mark inner _ parameters body hne hparameters b rest _ hb u rest' _ hu ihb ihu =>
      cases h
      exact .abstraction hparameters hne (ihb hb) (ihu hu)
  | case12 left letters rest operand hoperand u rest' _ hu ihu =>
      cases h
      exact .word hoperand (ihu hu)
  | case14 left digits rest u rest' _ hu ihu =>
      cases h
      exact .numeral (ihu hu)
  | case15 rest hparen hlambda hword hnumeral u =>
      cases h
      apply ReadsTo.finish
      intro token htoken
      obtain ⟨tail, rfl⟩ := List.head?_eq_some_iff.mp htoken
      cases token with
      | lambda mark => exact (hlambda mark tail rfl).elim
      | leftParen => exact (hparen tail rfl).elim
      | word letters => exact (hword letters tail rfl).elim
      | numeral digits => exact (hnumeral digits tail rfl).elim
      | dot => rfl
      | rightParen => rfl
  | _ => cases h

theorem readsTo_of_ofTokens {ts : List Token} {t : Term} (h : ofTokens ts = .ok t) :
    ReadsTo none ts t [] := by
  unfold ofTokens at h
  split_ifs at h with hempty
  split at h
  · cases h
  · rename_i u rest _ hu
    split_ifs at h with hrest
    cases h
    rw [← List.isEmpty_iff.mp hrest]
    exact readsTo_of_readTerm hu

/-! ## Words -/

/-- A token whose word, if it is one, has letters only. -/
def Token.Lettered : Token → Prop
  | word letters => ∀ c ∈ letters, isLetter c = true
  | _ => True

theorem mem_alphabet_of_isLetter {c : Char} (h : isLetter c = true) : c ∈ alphabet := by
  rw [isLetter, Bool.and_eq_true, decide_eq_true_eq, decide_eq_true_eq] at h
  exact mem_alphabet_iff.mpr h

/-- The words of a text have letters only. -/
theorem lettered_of_cutFrom {start : Nat} {cs : List Char} {placed : List (Text.Placed Token)}
    (h : cutFrom start cs = .ok placed) : ∀ p ∈ placed, p.token.Lettered := by
  intro p hp
  have hcut : p.token.Cut := cut_of_cutFrom h p hp
  cases htoken : p.token with
  | word letters =>
      rw [htoken] at hcut
      exact hcut.2
  | _ => trivial

/-! ## The names of a term that is read -/

theorem lettered_applied {left : Option Term} {operand : Term}
    (hleft : ∀ f ∈ left, f.Lettered) (hoperand : operand.Lettered) :
    (applied left operand).Lettered := by
  cases left with
  | none => exact hoperand
  | some f => exact lettered_app.mpr ⟨hleft f rfl, hoperand⟩

theorem lettered_abstractAll {parameters : List Char} {b : Term}
    (hparameters : ∀ c ∈ parameters, isLetter c = true) (hb : b.Lettered) :
    (abstractAll parameters b).Lettered := by
  induction parameters with
  | nil => exact hb
  | cons c parameters ih =>
      obtain ⟨hc, hrest⟩ := List.forall_mem_cons.mp hparameters
      exact lettered_lam.mpr ⟨isLetter_toString (mem_alphabet_of_isLetter hc), ih hrest⟩

theorem lettered_of_wordTerm? {letters : List Char} {t : Term}
    (hletters : ∀ c ∈ letters, isLetter c = true) (h : wordTerm? letters = some t) :
    t.Lettered := by
  unfold wordTerm? at h
  split at h
  · cases h
    exact lettered_var.mpr (isLetter_toString (mem_alphabet_of_isLetter (hletters _ (.head _))))
  · obtain ⟨c, _, rfl⟩ := Option.map_eq_some_iff.mp h
    exact c.lettered_term

/-- The parameters before a dot are letters, and so are the words after them. -/
theorem lettered_readParameters {ts : List Token} (h : ∀ token ∈ ts, token.Lettered) :
    (∀ c ∈ (readParameters ts).1, isLetter c = true) ∧
      ∀ token ∈ (readParameters ts).2, token.Lettered := by
  fun_induction readParameters ts with
  | case1 letters rest more rest' hrest ih =>
      obtain ⟨hletters, htail⟩ := List.forall_mem_cons.mp h
      obtain ⟨hmore, hrest'⟩ := ih htail
      rw [hrest] at hmore hrest'
      exact ⟨List.forall_mem_append.mpr ⟨hletters, hmore⟩, hrest'⟩
  | case2 ts => exact ⟨List.forall_mem_nil _, h⟩

/-- From words of letters, a term of letters is read and words of letters are left. -/
theorem ReadsTo.lettered {left : Option Term} {ts rest : List Token} {t : Term}
    (h : ReadsTo left ts t rest) (hleft : ∀ f ∈ left, f.Lettered)
    (hts : ∀ token ∈ ts, token.Lettered) :
    t.Lettered ∧ ∀ token ∈ rest, token.Lettered := by
  induction h with
  | finish t _ => exact ⟨hleft t rfl, hts⟩
  | group _ _ ihoperand iht =>
      obtain ⟨hoperand, hrest⟩ := ihoperand nofun (List.forall_mem_cons.mp hts).2
      apply iht
      · rintro f ⟨⟩
        exact lettered_applied hleft hoperand
      · exact (List.forall_mem_cons.mp hrest).2
  | abstraction hparameters _ _ _ ihb iht =>
      obtain ⟨hletters, hbody⟩ := lettered_readParameters (List.forall_mem_cons.mp hts).2
      rw [hparameters] at hletters hbody
      obtain ⟨hb, hrest⟩ := ihb nofun (List.forall_mem_cons.mp hbody).2
      apply iht
      · rintro f ⟨⟩
        exact lettered_applied hleft (lettered_abstractAll hletters hb)
      · exact hrest
  | word hoperand _ iht =>
      obtain ⟨hletters, hrest⟩ := List.forall_mem_cons.mp hts
      apply iht
      · rintro f ⟨⟩
        exact lettered_applied hleft (lettered_of_wordTerm? hletters hoperand)
      · exact hrest
  | numeral _ iht =>
      apply iht
      · rintro f ⟨⟩
        exact lettered_applied hleft (lettered_church _)
      · exact (List.forall_mem_cons.mp hts).2

/-- The surface syntax yields terms of letters. -/
theorem lettered_of_ofText {s : String} {t : Term} (h : ofText s = .ok t) : t.Lettered := by
  rw [ofText] at h
  split at h
  · cases h
  · rename_i placed hlex
    have hplaced : ∀ p ∈ placed, p.token.Lettered :=
      lettered_of_cutFrom (mapError_eq_ok_iff.mp hlex)
    have htokens : ∀ token ∈ placed.map (·.token), token.Lettered := List.forall_mem_map.mpr hplaced
    have hread : ofTokens (placed.map (·.token)) = .ok t := mapError_eq_ok_iff.mp h
    exact ((readsTo_of_ofTokens hread).lettered nofun htokens).1

end Surface

end BinaryLambda
