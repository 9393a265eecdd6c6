import BinaryLambda.Proofs.Outcome
import BinaryLambda.Proofs.Text.Offence
import BinaryLambda.Proofs.Text.Placed
import BinaryLambda.Surface.Token
import Mathlib.Data.List.TakeWhile

set_option autoImplicit false

/-!
# Surface syntax: cutting a text into tokens

A text is cut if and only if all its characters belong to the surface syntax
(`scans_cutFrom`).  `CutsInto` says into which tokens (`cutsInto_of_cutFrom`): each can come
from a text (`Token.Cut`) and stands where it says (`standsAt_of_cutFrom`).  Any sequence of
such tokens comes from a text, the one that writes them with spaces in front
(`exists_cutFrom_apart`).
-/

namespace BinaryLambda.Surface

/-! ## Words and numerals -/

/-- A letter begins the word of all the letters there are. -/
theorem cutFrom_of_isLetter {c : Char} (hc : isLetter c = true) (start : Nat) (cs : List Char) :
    cutFrom start (c :: cs) =
      (cutFrom (start + (c :: cs.takeWhile isLetter).length) (cs.dropWhile isLetter)).map
        (⟨.word (c :: cs.takeWhile isLetter), start⟩ :: ·) := by
  rw [cutFrom, if_neg (not_or.mpr ⟨Text.ne_of_kind hc rfl, Text.ne_of_kind hc rfl⟩),
    if_neg (Text.ne_of_kind hc rfl), if_neg (Text.ne_of_kind hc rfl),
    if_neg (Text.ne_of_kind hc rfl), if_pos hc]

/-- No digit is a letter. -/
theorem isLetter_of_isNumeralDigit {c : Char} (h : isNumeralDigit c = true) :
    isLetter c = false := by
  rw [isNumeralDigit, Bool.and_eq_true, decide_eq_true_eq, decide_eq_true_eq] at h
  rw [isLetter, Bool.and_eq_false_iff, decide_eq_false_iff_not]
  left
  intro hlow
  exact absurd (Char.le_trans hlow h.2) (by decide)

/-- A digit begins the numeral of all the digits there are. -/
theorem cutFrom_of_isNumeralDigit {c : Char} (hc : isNumeralDigit c = true) (start : Nat)
    (cs : List Char) :
    cutFrom start (c :: cs) =
      (cutFrom (start + (c :: cs.takeWhile isNumeralDigit).length)
        (cs.dropWhile isNumeralDigit)).map
        (⟨.numeral (c :: cs.takeWhile isNumeralDigit), start⟩ :: ·) := by
  rw [cutFrom, if_neg (not_or.mpr ⟨Text.ne_of_kind hc rfl, Text.ne_of_kind hc rfl⟩),
    if_neg (Text.ne_of_kind hc rfl), if_neg (Text.ne_of_kind hc rfl),
    if_neg (Text.ne_of_kind hc rfl), if_neg (by simp [isLetter_of_isNumeralDigit hc]), if_pos hc]

/-- Where a character of a kind begins a token of all of that kind, a run that ends there is
one token. -/
theorem cutFrom_run {p : Char → Bool} {token : List Char → Token}
    (hcut : ∀ {c : Char}, p c = true → ∀ start cs, cutFrom start (c :: cs) =
      (cutFrom (start + (c :: cs.takeWhile p).length) (cs.dropWhile p)).map
        (⟨token (c :: cs.takeWhile p), start⟩ :: ·))
    {run rest : List Char} (hne : run ≠ []) (hrun : ∀ c ∈ run, p c = true)
    (hrest : ∀ c ∈ rest.head?, p c = false) (start : Nat) :
    cutFrom start (run ++ rest) =
      (cutFrom (start + run.length) rest).map (⟨token run, start⟩ :: ·) := by
  obtain ⟨c, cs, rfl⟩ := List.exists_cons_of_ne_nil hne
  obtain ⟨hc, hcs⟩ := List.forall_mem_cons.mp hrun
  rw [List.cons_append, hcut hc, Text.takeWhile_run hcs hrest, Text.dropWhile_run hcs hrest]

/-- White space is neither a letter nor a digit. -/
theorem isBlank_of_printable {c : Char} (hlow : 33 ≤ c.toNat) (hhigh : c.toNat ≤ 126) :
    Text.isBlank c = false := by
  simp only [Text.isBlank, Bool.or_eq_false_iff, Bool.and_eq_false_iff, decide_eq_false_iff_not,
    beq_eq_false_iff_ne]
  omega

theorem isBlank_of_isLetter {c : Char} (h : isLetter c = true) : Text.isBlank c = false := by
  rw [isLetter, Bool.and_eq_true, decide_eq_true_eq, decide_eq_true_eq] at h
  have hlow : 97 ≤ c.toNat := h.1
  have hhigh : c.toNat ≤ 122 := h.2
  exact isBlank_of_printable (by omega) (by omega)

theorem isBlank_of_isNumeralDigit {c : Char} (h : isNumeralDigit c = true) :
    Text.isBlank c = false := by
  rw [isNumeralDigit, Bool.and_eq_true, decide_eq_true_eq, decide_eq_true_eq] at h
  have hlow : 48 ≤ c.toNat := h.1
  have hhigh : c.toNat ≤ 57 := h.2
  exact isBlank_of_printable (by omega) (by omega)

/-- White space is dropped. -/
theorem cutFrom_blank {c : Char} (hc : Text.isBlank c = true) (start : Nat) (cs : List Char) :
    cutFrom start (c :: cs) = cutFrom (start + 1) cs := by
  have hletter : ¬ isLetter c = true := fun h => by simp [isBlank_of_isLetter h] at hc
  have hdigit : ¬ isNumeralDigit c = true := fun h => by simp [isBlank_of_isNumeralDigit h] at hc
  rw [cutFrom, if_neg (not_or.mpr ⟨Text.ne_of_kind hc rfl, Text.ne_of_kind hc rfl⟩),
    if_neg (Text.ne_of_kind hc rfl), if_neg (Text.ne_of_kind hc rfl),
    if_neg (Text.ne_of_kind hc rfl), if_neg hletter, if_neg hdigit, if_pos hc]

/-! ## The characters -/

/-- A character of the surface syntax. -/
def Belongs (c : Char) : Prop :=
  c ∈ ['λ', '\\', '.', '(', ')'] ∨ 'a' ≤ c ∧ c ≤ 'z' ∨ '0' ≤ c ∧ c ≤ '9' ∨ Text.isBlank c = true

theorem belongs_of_isLetter {c : Char} (h : isLetter c = true) : Belongs c := by
  rw [isLetter, Bool.and_eq_true, decide_eq_true_eq, decide_eq_true_eq] at h
  exact .inr (.inl h)

theorem belongs_of_isNumeralDigit {c : Char} (h : isNumeralDigit c = true) : Belongs c := by
  rw [isNumeralDigit, Bool.and_eq_true, decide_eq_true_eq, decide_eq_true_eq] at h
  exact .inr (.inr (.inl h))

/-- The first of a run and the rest of it. -/
theorem run_append {p : Char → Bool} (c : Char) (rest : List Char) :
    c :: rest = c :: rest.takeWhile p ++ rest.dropWhile p := by
  rw [List.cons_append, List.takeWhile_append_dropWhile]

/-- A run has characters of its kind only. -/
theorem of_mem_run {p : Char → Bool} {c d : Char} {rest : List Char} (hc : p c = true)
    (hd : d ∈ c :: rest.takeWhile p) : p d = true := by
  rcases List.mem_cons.mp hd with rfl | hd
  · exact hc
  · exact List.mem_takeWhile_imp hd

/-- A text is cut up to the first character that does not belong. -/
theorem scans_cutFrom (start : Nat) (cs : List Char) :
    Text.Scans Belongs start cs (cutFrom start cs) := by
  fun_induction cutFrom start cs with
  | case1 => exact List.forall_mem_nil _
  | case2 start c rest hc ih =>
      apply (ih.map _).cons
      rcases hc with rfl | rfl <;> exact .inl (by simp)
  | case3 start rest _ ih => exact (ih.map _).cons (.inl (by simp))
  | case4 start rest _ _ ih => exact (ih.map _).cons (.inl (by simp))
  | case5 start rest _ _ _ ih => exact (ih.map _).cons (.inl (by simp))
  | case6 start c rest _ _ _ _ hc =>
      rename_i ih
      rw [run_append (p := isLetter) c rest]
      exact (ih.map _).append fun d hd => belongs_of_isLetter (of_mem_run hc hd)
  | case7 start c rest _ _ _ _ _ hc =>
      rename_i ih
      rw [run_append (p := isNumeralDigit) c rest]
      exact (ih.map _).append fun d hd => belongs_of_isNumeralDigit (of_mem_run hc hd)
  | case8 start c rest _ _ _ _ _ _ hc ih => exact ih.cons (.inr (.inr (.inr hc)))
  | case9 start c rest hlambda hdot hleft hright hletter hdigit hblank =>
      apply Text.scans_stray
      rintro (hmark | ⟨hlow, hhigh⟩ | ⟨hlow, hhigh⟩ | hc)
      · rw [not_or] at hlambda
        simp only [List.mem_cons, List.not_mem_nil, or_false] at hmark
        rcases hmark with h | h | h | h | h
        · exact hlambda.1 h
        · exact hlambda.2 h
        · exact hdot h
        · exact hleft h
        · exact hright h
      · exact hletter (by simp [isLetter, hlow, hhigh])
      · exact hdigit (by simp [isNumeralDigit, hlow, hhigh])
      · exact hblank hc

/-! ## The tokens -/

/-- A token that a text can be cut into. -/
def Token.Cut : Token → Prop
  | lambda mark => mark = 'λ' ∨ mark = '\\'
  | word letters => letters ≠ [] ∧ ∀ c ∈ letters, isLetter c = true
  | numeral digits => digits ≠ [] ∧ ∀ c ∈ digits, isNumeralDigit c = true
  | dot | leftParen | rightParen => True

/-- A character that would be part of the token if it stood beside it. -/
def Token.extendedBy : Token → Char → Bool
  | word _ => isLetter
  | numeral _ => isNumeralDigit
  | lambda _ | dot | leftParen | rightParen => fun _ => false

/-- The characters, the first of which is at `start`, are cut into the tokens.  A token ends
where the next character would not be part of it; white space is dropped. -/
inductive CutsInto : Nat → List Char → List (Text.Placed Token) → Prop where
  | finish (start : Nat) : CutsInto start [] []
  | blank {start : Nat} {c : Char} {cs : List Char} {placed : List (Text.Placed Token)} :
      Text.isBlank c = true → CutsInto (start + 1) cs placed → CutsInto start (c :: cs) placed
  | token {start : Nat} {t : Token} {rest : List Char} {placed : List (Text.Placed Token)} :
      t.Cut → (∀ c ∈ rest.head?, t.extendedBy c = false) →
      CutsInto (start + t.chars.length) rest placed →
      CutsInto start (t.chars ++ rest) (⟨t, start⟩ :: placed)

/-- Cutting gives the tokens that a text is cut into. -/
theorem cutsInto_of_cutFrom {start : Nat} {cs : List Char} {placed : List (Text.Placed Token)}
    (h : cutFrom start cs = .ok placed) : CutsInto start cs placed := by
  fun_induction cutFrom start cs generalizing placed with
  | case1 start =>
      cases h
      exact .finish start
  | case2 start c rest hc ih =>
      obtain ⟨more, hmore, rfl⟩ := map_eq_ok_iff.mp h
      exact .token (t := .lambda c) hc (fun _ _ => rfl) (ih hmore)
  | case3 start rest _ ih =>
      obtain ⟨more, hmore, rfl⟩ := map_eq_ok_iff.mp h
      exact .token (t := .dot) trivial (fun _ _ => rfl) (ih hmore)
  | case4 start rest _ _ ih =>
      obtain ⟨more, hmore, rfl⟩ := map_eq_ok_iff.mp h
      exact .token (t := .leftParen) trivial (fun _ _ => rfl) (ih hmore)
  | case5 start rest _ _ _ ih =>
      obtain ⟨more, hmore, rfl⟩ := map_eq_ok_iff.mp h
      exact .token (t := .rightParen) trivial (fun _ _ => rfl) (ih hmore)
  | case6 start c rest _ _ _ _ hc =>
      rename_i ih
      obtain ⟨more, hmore, rfl⟩ := map_eq_ok_iff.mp h
      rw [run_append (p := isLetter) c rest]
      exact .token (t := .word (c :: rest.takeWhile isLetter))
        ⟨List.cons_ne_nil _ _, fun d hd => of_mem_run hc hd⟩ (Text.head?_dropWhile _ rest)
        (ih hmore)
  | case7 start c rest _ _ _ _ _ hc =>
      rename_i ih
      obtain ⟨more, hmore, rfl⟩ := map_eq_ok_iff.mp h
      rw [run_append (p := isNumeralDigit) c rest]
      exact .token (t := .numeral (c :: rest.takeWhile isNumeralDigit))
        ⟨List.cons_ne_nil _ _, fun d hd => of_mem_run hc hd⟩ (Text.head?_dropWhile _ rest)
        (ih hmore)
  | case8 start c rest _ _ _ _ _ _ hblank ih => exact .blank hblank (ih h)
  | case9 => cases h

/-- A token is cut off where it ends. -/
theorem cutFrom_chars {t : Token} (ht : t.Cut) {rest : List Char}
    (hrest : ∀ c ∈ rest.head?, t.extendedBy c = false) (start : Nat) :
    cutFrom start (t.chars ++ rest) =
      (cutFrom (start + t.chars.length) rest).map (⟨t, start⟩ :: ·) := by
  cases t with
  | lambda mark =>
      rcases ht with rfl | rfl <;> (rw [Token.chars, List.singleton_append, cutFrom]; rfl)
  | dot | leftParen | rightParen =>
      rw [Token.chars, List.singleton_append, cutFrom]
      rfl
  | word letters => exact cutFrom_run cutFrom_of_isLetter ht.1 ht.2 hrest start
  | numeral digits => exact cutFrom_run cutFrom_of_isNumeralDigit ht.1 ht.2 hrest start

/-- A text that is cut into tokens gives them. -/
theorem CutsInto.cutFrom_eq {start : Nat} {cs : List Char} {placed : List (Text.Placed Token)}
    (h : CutsInto start cs placed) : cutFrom start cs = .ok placed := by
  induction h with
  | finish start => rw [cutFrom]
  | blank hc _ ih => rw [cutFrom_blank hc, ih]
  | token ht hrest _ ih =>
      rw [cutFrom_chars ht hrest, ih]
      rfl

/-- What a text is cut into. -/
theorem cut_of_cutFrom {start : Nat} {cs : List Char} {placed : List (Text.Placed Token)}
    (h : cutFrom start cs = .ok placed) : ∀ p ∈ placed, p.token.Cut := by
  have hcuts := cutsInto_of_cutFrom h
  clear h
  induction hcuts with
  | finish => exact List.forall_mem_nil _
  | blank _ _ ih => exact ih
  | token ht _ _ ih => exact List.forall_mem_cons.mpr ⟨ht, ih⟩

/-- The characters of the token stand at its place, the first character being at `start`. -/
def StandsAt (cs : List Char) (start : Nat) (p : Text.Placed Token) : Prop :=
  ∃ before after, cs = before ++ (p.token.chars ++ after) ∧ p.start = start + before.length

theorem StandsAt.append {cs : List Char} {start : Nat} {p : Text.Placed Token}
    (front : List Char) (h : StandsAt cs (start + front.length) p) :
    StandsAt (front ++ cs) start p := by
  obtain ⟨before, after, rfl, hstart⟩ := h
  refine ⟨front ++ before, after, (List.append_assoc ..).symm, ?_⟩
  rw [hstart, List.length_append, Nat.add_assoc]

/-- A token in front stands at the front, and the others where they did. -/
theorem standsAt_cons {token : Token} {rest : List Char} {start : Nat}
    {more : List (Text.Placed Token)}
    (h : ∀ p ∈ more, StandsAt rest (start + token.chars.length) p) :
    ∀ p ∈ (⟨token, start⟩ :: more : List (Text.Placed Token)),
      StandsAt (token.chars ++ rest) start p := by
  rw [List.forall_mem_cons]
  exact ⟨⟨[], rest, rfl, rfl⟩, fun p hp => (h p hp).append token.chars⟩

/-- Every token stands where it says. -/
theorem standsAt_of_cutFrom {start : Nat} {cs : List Char} {placed : List (Text.Placed Token)}
    (h : cutFrom start cs = .ok placed) : ∀ p ∈ placed, StandsAt cs start p := by
  have hcuts := cutsInto_of_cutFrom h
  clear h
  induction hcuts with
  | finish => exact List.forall_mem_nil _
  | @blank start c cs placed _ _ ih => exact fun p hp => (ih p hp).append [c]
  | token _ _ _ ih => exact standsAt_cons ih

/-! ## Tokens apart -/

/-- The characters of the tokens, with a space in front of each. -/
def apart (ts : List Token) : List Char := ts.flatMap (' ' :: ·.chars)

/-- The characters of tokens apart end a word or a numeral. -/
theorem head?_apart (ts : List Token) : ∀ c ∈ (apart ts).head?, c = ' ' := by
  cases ts with
  | nil => exact nofun
  | cons t ts =>
      rintro c ⟨⟩
      rfl

/-- No token takes white space. -/
theorem Token.extendedBy_of_isBlank (t : Token) {c : Char} (hc : Text.isBlank c = true) :
    t.extendedBy c = false := by
  cases t with
  | word letters => exact Bool.eq_false_iff.mpr fun h => by simp [isBlank_of_isLetter h] at hc
  | numeral digits =>
      exact Bool.eq_false_iff.mpr fun h => by simp [isBlank_of_isNumeralDigit h] at hc
  | lambda _ | dot | leftParen | rightParen => rfl

/-- Tokens apart are cut into the tokens. -/
theorem exists_cutFrom_apart {ts : List Token} (h : ∀ t ∈ ts, t.Cut) (start : Nat) :
    ∃ placed, cutFrom start (apart ts) = .ok placed ∧ placed.map (·.token) = ts := by
  induction ts generalizing start with
  | nil => exact ⟨[], by rw [apart, List.flatMap_nil, cutFrom], rfl⟩
  | cons t ts ih =>
      obtain ⟨ht, hts⟩ := List.forall_mem_cons.mp h
      obtain ⟨placed, hcut, htokens⟩ := ih hts (start + 1 + t.chars.length)
      refine ⟨⟨t, start + 1⟩ :: placed, ?_, congrArg (t :: ·) htokens⟩
      have hcons : apart (t :: ts) = ' ' :: (t.chars ++ apart ts) := rfl
      have hends : ∀ c ∈ (apart ts).head?, t.extendedBy c = false := by
        intro c hc
        rw [head?_apart ts c hc]
        exact t.extendedBy_of_isBlank rfl
      rw [hcons, cutFrom_blank rfl, cutFrom_chars ht hends, hcut]
      rfl

end BinaryLambda.Surface
