import BinaryLambda.IndexTerm.Basic

set_option autoImplicit false

/-!
# Index terms: the binary code

    index n          n ones and a zero
    λ. body          00 body
    (left right)     01 left right

Every index term has one code, and no code is the beginning of another, so a
sequence of bits is read from left to right without separators.
-/

namespace BinaryLambda.IndexTerm

/-- The code of an index term, followed by `rest`; ones are true. -/
def codeOnto : IndexTerm → List Bool → List Bool
  | bound n, rest => List.replicate (n + 1) true ++ false :: rest
  | lam b, rest => false :: false :: b.codeOnto rest
  | app f a, rest => false :: true :: f.codeOnto (a.codeOnto rest)

/-- The code of an index term. -/
def code (t : IndexTerm) : List Bool := t.codeOnto []

theorem codeOnto_append (t : IndexTerm) (rest tail : List Bool) :
    t.codeOnto rest ++ tail = t.codeOnto (rest ++ tail) := by
  induction t generalizing rest with
  | bound n => simp [codeOnto]
  | lam b ih => simp only [codeOnto, List.cons_append, ih]
  | app f a ihf iha => simp only [codeOnto, List.cons_append, ihf, iha]

theorem codeOnto_eq (t : IndexTerm) (rest : List Bool) : t.codeOnto rest = t.code ++ rest := by
  simp only [code, codeOnto_append, List.nil_append]

@[simp] theorem code_bound (n : Nat) :
    (bound n).code = List.replicate (n + 1) true ++ [false] := rfl

@[simp] theorem code_lam (b : IndexTerm) : (lam b).code = false :: false :: b.code := rfl

@[simp] theorem code_app (f a : IndexTerm) :
    (app f a).code = false :: true :: (f.code ++ a.code) := by
  rw [code, codeOnto, codeOnto_eq f]; rfl

/-- The character of a bit. -/
def bitChar (b : Bool) : Char := if b then '1' else '0'

/-- The bit of a character. -/
def bit? (c : Char) : Option Bool :=
  if c = '1' then some true else if c = '0' then some false else none

/-- The code of an index term as a text. -/
def bits (t : IndexTerm) : String := String.ofList (t.code.map bitChar)

/-! ## Reading -/

/-- Why a sequence of bits is no code. -/
inductive CodeMistake where
  /-- a term is missing -/
  | missingTerm
  /-- the bits end inside an index -/
  | insideIndex
  /-- the bits end inside a tag of two bits -/
  | insideTag
  /-- bits follow a complete code -/
  | trailing
  deriving DecidableEq, Repr, Inhabited

/-- The number of ones up to the next zero, and what follows that zero. -/
def readOnes : List Bool → Option (Nat × List Bool)
  | [] => none
  | false :: rest => some (0, rest)
  | true :: rest => (readOnes rest).map fun r => (r.1 + 1, r.2)

theorem readOnes_shorter {bs rest : List Bool} {n : Nat} (h : readOnes bs = some (n, rest)) :
    rest.length < bs.length := by
  induction bs generalizing n with
  | nil => simp [readOnes] at h
  | cons b bs ih =>
    cases b with
    | false => simp only [readOnes, Option.some.injEq, Prod.mk.injEq] at h; simp [h.2]
    | true =>
      simp only [readOnes, Option.map_eq_some_iff, Prod.mk.injEq] at h
      obtain ⟨⟨m, r⟩, hr, _, rfl⟩ := h
      have : r.length < bs.length := ih hr
      simp only [List.length_cons]
      omega

/-- Reads the term at the front of a sequence of bits.  A mistake comes with the
bits from the symbol on that cannot be read. -/
def readFront (bs : List Bool) :
    Except (CodeMistake × List Bool)
      (IndexTerm × { rest : List Bool // rest.length < bs.length }) :=
  match bs with
  | [] => .error (.missingTerm, [])
  | true :: rest =>
    match h : readOnes rest with
    | none => .error (.insideIndex, true :: rest)
    | some (n, rest') =>
      .ok (bound n, ⟨rest', by have := readOnes_shorter h; simp only [List.length_cons]; omega⟩)
  | [false] => .error (.insideTag, [false])
  | false :: false :: body =>
    match readFront body with
    | .error e => .error e
    | .ok (b, ⟨rest, h⟩) => .ok (lam b, ⟨rest, by simp only [List.length_cons]; omega⟩)
  | false :: true :: sides =>
    match readFront sides with
    | .error e => .error e
    | .ok (f, ⟨rest, h⟩) =>
      match readFront rest with
      | .error e => .error e
      | .ok (a, ⟨rest', h'⟩) =>
        .ok (app f a, ⟨rest', by simp only [List.length_cons]; omega⟩)
termination_by bs.length
decreasing_by all_goals simp only [List.length_cons]; omega

/-- Reads a whole sequence of bits. -/
def ofCode (bs : List Bool) : Except (CodeMistake × List Bool) IndexTerm :=
  match readFront bs with
  | .error e => .error e
  | .ok (t, ⟨rest, _⟩) => if rest.isEmpty then .ok t else .error (.trailing, rest)

/-- Why a text is no code. -/
inductive BitsFault where
  | empty
  /-- a character that is no bit -/
  | noBit (text : String) (position : Nat) (character : Char)
  /-- a mistake at the bit of index `position` -/
  | mistake (text : String) (position : Nat) (kind : CodeMistake)
  deriving DecidableEq, Repr, Inhabited

/-- Reads the characters from `position` on as bits; a character that is no bit
stops the reading. -/
def readBits (position : Nat) : List Char → Except (Nat × Char) (List Bool)
  | [] => .ok []
  | c :: cs =>
    match bit? c with
    | none => .error (position, c)
    | some b => (readBits (position + 1) cs).map (b :: ·)

/-- The index term of a code written as a text. -/
def ofBits (s : String) : Except BitsFault IndexTerm :=
  if s.isEmpty then .error .empty
  else
    match readBits 0 s.toList with
    | .error (position, c) => .error (.noBit s position c)
    | .ok bs => (ofCode bs).mapError fun e => .mistake s (bs.length - e.2.length) e.1

/-- Marks the character or the symbol that cannot be read. -/
def BitsFault.diagnostic : BitsFault → Diagnostic
  | empty => .markingFrom .encoding "bit string cannot be empty" [""] 0
  | noBit s position c =>
    .marking .encoding "'\x7b\x7d' contains '\x7b\x7d', which is not a bit" [s, c.toString] position
      (position + 1)
  | mistake s position .missingTerm =>
    .marking .encoding "'\x7b\x7d' ended where a λ-term was expected" [s] position (position + 1)
  | mistake s position .insideIndex =>
    .markingFrom .encoding "'\x7b\x7d' ends inside an index" [s] position
  | mistake s position .insideTag =>
    .markingFrom .encoding "'\x7b\x7d' ends inside a two-bit tag" [s] position
  | mistake s position .trailing =>
    .markingFrom .encoding "'\x7b\x7d' has trailing bits after a complete λ-term" [s] position

end BinaryLambda.IndexTerm
