import BinaryLambda.Surface.Combinator
import BinaryLambda.Surface.Token
import BinaryLambda.Term.Church
import BinaryLambda.Term.Printer

set_option autoImplicit false

/-!
# Surface syntax: reading

A term is a sequence of operands, applied from the left.  An operand is a term
between parentheses, a variable of one letter, the name of a combinator, a
numeral, or an abstraction; the body of an abstraction reaches as far as it can,
so an abstraction is always the last operand.  The letters of the words before
the dot are its parameters, one abstraction each.

Reading looks at the tokens alone, so white space matters only where it joins or
splits words and numerals.
-/

namespace BinaryLambda.Surface

/-- Why a token sequence is no term. -/
inductive Mistake where
  /-- there are no tokens at all -/
  | empty
  /-- a term is missing at the end -/
  | missingTerm
  /-- a token that cannot stand where it does -/
  | unexpected (t : Token)
  /-- an abstraction without parameters -/
  | missingParameter
  /-- no dot after the parameters -/
  | missingDot
  /-- a parenthesis that is not closed -/
  | unclosed
  /-- a word that names no combinator -/
  | unknownName (letters : List Char)
  deriving DecidableEq, Repr, Inhabited

/-- A mistake and the tokens from the offending one on. -/
abbrev Stop : Type := Mistake × List Token

/-- What a missing term looks like at the front of `ts`. -/
def noTermAt : List Token → Stop
  | [] => (.missingTerm, [])
  | t :: ts => (.unexpected t, t :: ts)

/-- The letters of the words at the front of a token sequence, and the rest. -/
def readParameters : List Token → List Char × List Token
  | .word letters :: rest =>
    let (more, rest) := readParameters rest
    (letters ++ more, rest)
  | ts => ([], ts)

theorem readParameters_length_le (ts : List Token) : (readParameters ts).2.length ≤ ts.length := by
  fun_induction readParameters ts with
  | case1 letters rest more rest' h ih =>
    simp only [h, List.length_cons] at ih ⊢
    omega
  | case2 => simp

/-- One abstraction for each parameter. -/
def abstractAll (parameters : List Char) (body : Term) : Term :=
  parameters.foldr (fun c t => .lam c.toString t) body

/-- The operand that a word stands for. -/
def wordTerm? (letters : List Char) : Option Term :=
  match letters with
  | [c] => some (.var c.toString)
  | _ => (Combinator.ofName? (String.ofList letters)).map Combinator.term

/-- The application of what has been read of a term to its next operand. -/
def applied (left : Option Term) (operand : Term) : Term :=
  match left with
  | none => operand
  | some f => .app f operand

/-- Reads a term at the front of a token sequence, `left` being the application of
the operands already read. -/
def readTerm (left : Option Term) (ts : List Token) :
    Except Stop (Term × { rest : List Token // rest.length ≤ ts.length }) :=
  match ts with
  | .leftParen :: inner =>
    match readTerm none inner with
    | .error e => .error e
    | .ok (t, ⟨rest, h⟩) =>
      match rest, h with
      | .rightParen :: rest', h' =>
        match readTerm (some (applied left t)) rest' with
        | .error e => .error e
        | .ok (t, ⟨rest, h''⟩) =>
          .ok (t, ⟨rest, by simp only [List.length_cons] at *; omega⟩)
      | rest', _ => .error (.unclosed, rest')
  | .lambda _ :: inner =>
    have := readParameters_length_le inner
    match hp : readParameters inner with
    | ([], rest) => .error (.missingParameter, rest)
    | (parameters, .dot :: body) =>
      match readTerm none body with
      | .error e => .error e
      | .ok (b, ⟨rest, h⟩) =>
        match readTerm (some (applied left (abstractAll parameters b))) rest with
        | .error e => .error e
        | .ok (t, ⟨rest', h'⟩) =>
          .ok (t, ⟨rest', by simp only [hp, List.length_cons] at *; omega⟩)
    | (_, rest) => .error (.missingDot, rest)
  | .word letters :: rest =>
    match wordTerm? letters with
    | none => .error (.unknownName letters, .word letters :: rest)
    | some operand =>
      match readTerm (some (applied left operand)) rest with
      | .error e => .error e
      | .ok (t, ⟨rest', h⟩) => .ok (t, ⟨rest', by simp only [List.length_cons]; omega⟩)
  | .numeral digits :: rest =>
    match readTerm (some (applied left (.church (Text.digitsValue digits)))) rest with
    | .error e => .error e
    | .ok (t, ⟨rest', h⟩) => .ok (t, ⟨rest', by simp only [List.length_cons]; omega⟩)
  | rest =>
    match left with
    | some t => .ok (t, ⟨rest, Nat.le_refl _⟩)
    | none => .error (noTermAt rest)
termination_by ts.length
decreasing_by all_goals simp only [List.length_cons, *] at *; omega

/-- Reads a whole token sequence. -/
def ofTokens (ts : List Token) : Except Stop Term :=
  if ts.isEmpty then .error (.empty, [])
  else
    match readTerm none ts with
    | .error e => .error e
    | .ok (t, ⟨rest, _⟩) => if rest.isEmpty then .ok t else .error (noTermAt rest)

/-- Why a text is no term of the surface syntax. -/
inductive Fault where
  | stray (e : StrayCharacter)
  /-- a mistake at the token that starts at `position` -/
  | mistake (text : String) (position : Nat) (kind : Mistake)
  deriving DecidableEq, Repr, Inhabited

/-- Reads a text of the surface syntax. -/
def ofText (s : String) : Except Fault Term :=
  match lex s with
  | .error e => .error (.stray e)
  | .ok placed =>
    (ofTokens (placed.map (·.token))).mapError fun e =>
      .mistake s (Text.Placed.place placed s.length e.2.length) e.1

/-- The canonical text of a text of the surface syntax. -/
def canonical (s : String) : Except Fault String := (ofText s).map Term.text

/-- Marks the character, the token or the word that is wrong. -/
def Fault.diagnostic : Fault → Diagnostic
  | stray e => e.diagnostic
  | mistake s position .empty => .atToken "λ-term cannot be empty" [s] position
  | mistake s position .missingTerm =>
    .atToken "'\x7b\x7d' ended where a λ-term was expected" [s] position
  | mistake s position (.unexpected t) =>
    .atToken "'\x7b\x7d' has unexpected '\x7b\x7d'" [s, t.text] position
  | mistake s position .missingParameter =>
    .atToken "'\x7b\x7d' is missing a parameter after 'λ'" [s] position
  | mistake s position .missingDot =>
    .atToken "'\x7b\x7d' is missing '.' after the parameters" [s] position
  | mistake s position .unclosed => .atToken "'\x7b\x7d' is missing ')'" [s] position
  | mistake s position (.unknownName letters) =>
    .marking (.grammar position) "'\x7b\x7d' uses unknown name '\x7b\x7d'"
      [s, String.ofList letters] position (position + letters.length)

end BinaryLambda.Surface
