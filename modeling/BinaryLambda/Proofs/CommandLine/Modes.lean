import BinaryLambda.CommandLine.Run
import BinaryLambda.Proofs.IndexTerm.Code
import BinaryLambda.Proofs.IndexTerm.Notation
import BinaryLambda.Proofs.Program.Evaluation
import BinaryLambda.Proofs.Surface.Reading

set_option autoImplicit false

/-!
# Command line: what is printed in each mode

A line comes to a term before it matters how the term is printed (`runLine_eq`).
The names in the term are letters, whatever syntax the line is in, so its text loses
nothing, and all modes print the same term (`runLine_modes_agree`).
-/

namespace BinaryLambda.CommandLine

/-! ## The term of a line -/

/-- A term as it is printed: reduced, if the options ask for it. -/
def reduced (o : Options) (t : Term) : Except LineFault Term :=
  if o.reduces then
    match o.cap with
    | none => .error .noCap
    | some cap => (t.interpret cap).mapError fun e => .program (.freshName e)
  else .ok t

/-- The term that is printed for a line. -/
def lineTerm (o : Options) (line : String) : Except LineFault Term :=
  (readTerm o line).mapError .program >>= reduced o

/-- What is printed for a line is its term in the form that the options ask for. -/
theorem runLine_eq (o : Options) (line : String) :
    (runLine o line).2 = lineTerm o line >>= fun t => (render o t).mapError .program := by
  rw [runLine, lineTerm]
  cases readTerm o line with
  | error e => rfl
  | ok t =>
      dsimp only [Except.mapError, bind, Except.bind]
      rw [reduced]
      split_ifs
      · cases o.cap with
        | none => rfl
        | some cap =>
            dsimp only
            rw [Term.run_watched_result]
            cases t.interpret cap <;> rfl
      · rfl

/-- How the term is printed has no say in which term it is, apart from the modes that
reduce in any case. -/
theorem lineTerm_congr {o o' : Options} (hsurface : o.surface = o'.surface)
    (hcap : o.cap = o'.cap) (hreduces : o.reduces = o'.reduces) (line : String) :
    lineTerm o line = lineTerm o' line := by
  have hread : readTerm o line = readTerm o' line := by rw [readTerm, readTerm, hsurface]
  have hreduced : reduced o = reduced o' := by
    funext t
    rw [reduced, reduced, hreduces, hcap]
  rw [lineTerm, lineTerm, hread, hreduced]

theorem lettered_of_readTerm {o : Options} {line : String} {t : Term}
    (h : readTerm o line = .ok t) : t.Lettered := by
  rw [readTerm] at h
  split_ifs at h
  · exact Surface.lettered_of_ofText (mapError_eq_ok_iff.mp h)
  · exact Program.lettered_of_read h

/-- The names in the term of a line are letters. -/
theorem lettered_of_lineTerm {o : Options} {line : String} {t : Term}
    (h : lineTerm o line = .ok t) : t.Lettered := by
  obtain ⟨u, hu, hreduced⟩ := bind_eq_ok_iff.mp h
  have hletters : u.Lettered := lettered_of_readTerm (mapError_eq_ok_iff.mp hu)
  unfold reduced at hreduced
  split at hreduced
  · split at hreduced
    · cases hreduced
    · exact hletters.interpret (mapError_eq_ok_iff.mp hreduced)
  · cases hreduced
    exact hletters

/-! ## The modes -/

theorem runLine_of_normal {o : Options} (h : o.mode = some .normal) (line : String) :
    (runLine o line).2 = (lineTerm o line).map Term.text := by
  have hrender : ∀ t, render o t = .ok t.text := by
    intro t
    rw [render, h]
  rw [runLine_eq]
  simp only [hrender]
  cases lineTerm o line <;> rfl

/-- The index term that is printed for a line. -/
def lineIndex (o : Options) (line : String) : Except LineFault IndexTerm :=
  lineTerm o line >>= fun t => (t.indexedWith o.registry).mapError fun e => .program (.unbound e)

/-- The options ask for the index term in this form. -/
def PrintsIndex (o : Options) (form : IndexTerm → String) : Prop :=
  ∀ t, render o t = ((t.indexedWith o.registry).map form).mapError .unbound

theorem PrintsIndex.runLine_eq {o : Options} {form : IndexTerm → String} (h : PrintsIndex o form)
    (line : String) : (runLine o line).2 = (lineIndex o line).map form := by
  have hrender : ∀ t, render o t = ((t.indexedWith o.registry).map form).mapError .unbound := h
  rw [CommandLine.runLine_eq, lineIndex]
  simp only [hrender]
  cases lineTerm o line with
  | error e => rfl
  | ok t =>
      dsimp only [bind, Except.bind]
      cases t.indexedWith o.registry <;> rfl

/-- Printing an index term is going on from the text that is printed of the same term. -/
theorem PrintsIndex.runLine_eq_of_normal {o o' : Options} {form : IndexTerm → String}
    {line : String} (h : PrintsIndex o form) (hterm : lineTerm o line = lineTerm o' line)
    (hmode : o'.mode = some .normal) :
    (runLine o line).2 = (runLine o' line).2 >>= fun text =>
      ((Program.indexed text o.registry).map form).mapError .program := by
  rw [h.runLine_eq, runLine_of_normal hmode, lineIndex, hterm]
  cases ht : lineTerm o' line with
  | error e => rfl
  | ok t =>
      dsimp only [bind, Except.bind, Except.map]
      rw [Program.indexed_text (lettered_of_lineTerm ht)]
      cases t.indexedWith o.registry <;> rfl

/-- **The modes agree on every line.**  Reducing and then printing the index term, in
its written form or in bits, has the outcome of printing the reduced term and
converting the text: the same answer, or the same failure.  Whether a line is reduced
or not, the written form and the bits are printed of one index term, which both are
read back as, or both fail in the same way. -/
theorem runLine_modes_agree (o : Options) (line : String) :
    (runLine { o with mode := some .bruijn, reduce := true } line).2 =
        ((runLine { o with mode := some .normal } line).2 >>= fun text =>
          (Program.indexText text o.registry).mapError .program) ∧
      (runLine { o with mode := some .binary, reduce := true } line).2 =
        ((runLine { o with mode := some .normal } line).2 >>= fun text =>
          (Program.bits text o.registry).mapError .program) ∧
      ((∃ written bits t, (runLine { o with mode := some .bruijn } line).2 = .ok written ∧
          (runLine { o with mode := some .binary } line).2 = .ok bits ∧
          IndexTerm.ofText written = .ok t ∧ IndexTerm.ofBits bits = .ok t) ∨
        ∃ e, (runLine { o with mode := some .bruijn } line).2 = .error e ∧
          (runLine { o with mode := some .binary } line).2 = .error e) := by
  have hwritten : ∀ reduce, PrintsIndex { o with mode := some .bruijn, reduce } IndexTerm.text :=
    fun _ _ => rfl
  have hbits : ∀ reduce, PrintsIndex { o with mode := some .binary, reduce } IndexTerm.bits :=
    fun _ _ => rfl
  refine ⟨?_, ?_, ?_⟩
  · exact (hwritten true).runLine_eq_of_normal (lineTerm_congr rfl rfl rfl line) rfl
  · exact (hbits true).runLine_eq_of_normal (lineTerm_congr rfl rfl rfl line) rfl
  · have hterm : lineTerm { o with mode := some .binary } line =
        lineTerm { o with mode := some .bruijn } line := lineTerm_congr rfl rfl rfl line
    have hindex : lineIndex { o with mode := some .binary } line =
        lineIndex { o with mode := some .bruijn } line := by
      rw [lineIndex, lineIndex, hterm]
      rfl
    rw [(hwritten o.reduce).runLine_eq, (hbits o.reduce).runLine_eq, hindex]
    cases lineIndex { o with mode := some .bruijn } line with
    | error e => exact .inr ⟨e, rfl, rfl⟩
    | ok t => exact .inl ⟨_, _, t, rfl, rfl, IndexTerm.ofText_text t, IndexTerm.ofBits_bits t⟩

/-- The binder `y` is renamed, and the free `y` is the first of the registry. -/
example :
    let o := { Options.initial with surface := true, free := true, reduce := true }
    (runLine { o with mode := some .normal } "(λx y.x y) y").2 = .ok "λz.(yz)" ∧
      (runLine { o with mode := some .bruijn } "(λx y.x y) y").2 = .ok "λ.(2 1)" ∧
      (runLine { o with mode := some .binary } "(λx y.x y) y").2 = .ok "000111010" := by
  decide +kernel

end BinaryLambda.CommandLine
