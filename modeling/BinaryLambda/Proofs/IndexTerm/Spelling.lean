import BinaryLambda.Proofs.Diagnostic
import BinaryLambda.Proofs.IndexTerm.Notation
import BinaryLambda.Proofs.Text.Placed
import Mathlib.Data.List.TakeWhile

set_option autoImplicit false

/-!
# Index terms: the texts that are read

`CutsInto` says into which tokens a text is cut: each as long as it can be, white space
being dropped.  A text is read as a term if and only if it is cut into tokens that spell
the term, and every other text is refused with a place in it
(`ofText_eq_ok_iff_spells`).
-/

namespace BinaryLambda.IndexTerm

/-! ## Cutting -/

/-- The tokens of a text.  A numeral takes all the digits there are; white space is
dropped. -/
inductive CutsInto : List Char → List Mark → Prop where
  | finish : CutsInto [] []
  | blank {c : Char} {cs : List Char} {ms : List Mark} : Text.isBlank c = true →
      CutsInto cs ms → CutsInto (c :: cs) ms
  | numeral {digits cs : List Char} {ms : List Mark} : digits ≠ [] →
      (∀ c ∈ digits, Text.isDigit c = true) → EndsNumeral cs →
      CutsInto cs ms → CutsInto (digits ++ cs) (.numeral digits :: ms)
  | lambda {cs : List Char} {ms : List Mark} : CutsInto cs ms →
      CutsInto ('λ' :: '.' :: cs) (.lambda :: ms)
  | leftParen {cs : List Char} {ms : List Mark} : CutsInto cs ms →
      CutsInto ('(' :: cs) (.leftParen :: ms)
  | rightParen {cs : List Char} {ms : List Mark} : CutsInto cs ms →
      CutsInto (')' :: cs) (.rightParen :: ms)

/-- A text that can be cut is cut into its tokens. -/
theorem cutsInto_of_cutFrom {start : Nat} {cs : List Char} {placed : List (Text.Placed Mark)}
    (h : cutFrom start cs = .ok placed) : CutsInto cs (placed.map (·.token)) := by
  fun_induction cutFrom start cs generalizing placed with
  | case1 =>
      cases h
      exact .finish
  | case2 start rest ih =>
      obtain ⟨more, hmore, rfl⟩ := map_eq_ok_iff.mp h
      exact .lambda (ih hmore)
  | case3 start rest _ ih =>
      obtain ⟨more, hmore, rfl⟩ := map_eq_ok_iff.mp h
      exact .leftParen (ih hmore)
  | case4 start rest _ _ ih =>
      obtain ⟨more, hmore, rfl⟩ := map_eq_ok_iff.mp h
      exact .rightParen (ih hmore)
  | case5 start c rest _ _ _ hblank ih => exact .blank hblank (ih h)
  | case6 start c rest _ _ _ _ hdigit =>
      rename_i ih
      obtain ⟨more, hmore, rfl⟩ := map_eq_ok_iff.mp h
      have hdigits : ∀ d ∈ c :: rest.takeWhile Text.isDigit, Text.isDigit d = true :=
        List.forall_mem_cons.mpr ⟨hdigit, fun d hd => List.mem_takeWhile_imp hd⟩
      have hall : c :: rest =
          c :: rest.takeWhile Text.isDigit ++ rest.dropWhile Text.isDigit := by
        rw [List.cons_append, List.takeWhile_append_dropWhile]
      rw [hall]
      exact .numeral (List.cons_ne_nil _ _) hdigits (Text.head?_dropWhile _ rest) (ih hmore)
  | case7 => cases h

/-- A text that has tokens is cut into them. -/
theorem CutsInto.exists_cutFrom {cs : List Char} {ms : List Mark} (h : CutsInto cs ms)
    (start : Nat) : ∃ placed, cutFrom start cs = .ok placed ∧ placed.map (·.token) = ms := by
  induction h generalizing start with
  | finish => exact ⟨[], by rw [cutFrom], rfl⟩
  | blank hc _ ih =>
      obtain ⟨placed, hcut, hmarks⟩ := ih (start + 1)
      exact ⟨placed, by rw [cutFrom_blank hc, hcut], hmarks⟩
  | @numeral digits _ _ hne hdigits hend _ ih =>
      obtain ⟨placed, hcut, hmarks⟩ := ih (start + digits.length)
      refine ⟨⟨.numeral digits, start⟩ :: placed, ?_, congrArg (_ :: ·) hmarks⟩
      rw [cutFrom_digits hne hdigits hend, hcut]
      rfl
  | lambda _ ih =>
      obtain ⟨placed, hcut, hmarks⟩ := ih (start + 2)
      refine ⟨⟨.lambda, start⟩ :: placed, ?_, congrArg (_ :: ·) hmarks⟩
      rw [cutFrom_lambda, hcut]
      rfl
  | leftParen _ ih =>
      obtain ⟨placed, hcut, hmarks⟩ := ih (start + 1)
      refine ⟨⟨.leftParen, start⟩ :: placed, ?_, congrArg (_ :: ·) hmarks⟩
      rw [cutFrom_leftParen, hcut]
      rfl
  | rightParen _ ih =>
      obtain ⟨placed, hcut, hmarks⟩ := ih (start + 1)
      refine ⟨⟨.rightParen, start⟩ :: placed, ?_, congrArg (_ :: ·) hmarks⟩
      rw [cutFrom_rightParen, hcut]
      rfl

/-! ## Reading tokens -/

/-- Tokens that are read as a term begin with tokens that spell it. -/
theorem exists_spells_of_readMarks {ms : List Mark} {t : IndexTerm}
    {r : { rest : List Mark // rest.length < ms.length }} (h : readMarks ms = .ok (t, r)) :
    ∃ front, Spells front t ∧ ms = front ++ r.1 := by
  fun_induction readMarks ms generalizing t with
  | case3 digits rest n hvalue =>
      cases h
      exact ⟨[.numeral digits], .numeral hvalue, rfl⟩
  | case5 body b rest _ hb ih =>
      cases h
      obtain ⟨front, hspells, hbody⟩ := ih hb
      exact ⟨.lambda :: front, .lam hspells, congrArg (_ :: ·) hbody⟩
  | case8 sides f rest _ hf a rest' _ _ ha ihf iha =>
      cases h
      obtain ⟨fs, hfs, hsides⟩ := ihf hf
      obtain ⟨as, has, hrest⟩ := iha ha
      refine ⟨.leftParen :: (fs ++ as ++ [.rightParen]), .app hfs has, ?_⟩
      dsimp only at hsides hrest ⊢
      rw [hsides, hrest]
      simp
  | _ => cases h

/-- A whole token sequence is read as a term if and only if it spells the term. -/
theorem ofMarks_eq_ok_iff {ms : List Mark} {t : IndexTerm} : ofMarks ms = .ok t ↔ Spells ms t := by
  constructor
  · intro h
    unfold ofMarks at h
    split at h
    · cases h
    · rename_i u rest _ hread
      split_ifs at h with hrest
      cases h
      obtain ⟨front, hspells, hms⟩ := exists_spells_of_readMarks hread
      dsimp only at hms
      rw [List.isEmpty_iff.mp hrest, List.append_nil] at hms
      rw [hms]
      exact hspells
  · exact Spells.ofMarks

/-! ## Places in a text -/

/-- Cutting names no place after the text. -/
theorem cutBefore_cutFrom (start : Nat) (cs : List Char) :
    Text.CutBefore (start + cs.length) (cutFrom start cs) := by
  fun_induction cutFrom start cs with
  | case1 => exact List.forall_mem_nil _
  | case2 start rest ih =>
      exact (ih.mono (by simp; omega)).cons _ (by simp)
  | case3 start rest _ ih => exact (ih.mono (by simp; omega)).cons _ (by simp)
  | case4 start rest _ _ ih => exact (ih.mono (by simp; omega)).cons _ (by simp)
  | case5 start c rest _ _ _ _ ih => exact ih.mono (by simp; omega)
  | case6 start c rest =>
      rename_i ih
      have hlength := congrArg List.length
        (List.takeWhile_append_dropWhile (p := Text.isDigit) (l := rest))
      rw [List.length_append] at hlength
      refine (ih.mono ?_).cons _ (by simp)
      change start + (c :: rest.takeWhile Text.isDigit).length + _ ≤ _
      simp only [List.length_cons]
      omega
  | case7 => exact Nat.lt_add_of_pos_right (by simp)

/-! ## Faults -/

namespace NotationFault

/-- The text that is refused. -/
def text : NotationFault → String
  | stray s _ _ => s
  | mistake s _ _ => s

/-- Where in the text it shows. -/
def position : NotationFault → Nat
  | stray _ p _ => p
  | mistake _ p _ => p

/-- The diagnostic of a fault marks its text from its position on, and it has a message. -/
theorem diagnostic_spec (e : NotationFault) :
    e.diagnostic.topic = .encoding ∧ e.diagnostic.subject = e.text ∧
      e.diagnostic.start = e.position ∧ e.diagnostic.checked = .ok e.diagnostic := by
  cases e with
  | stray s p c => exact ⟨rfl, rfl, rfl, Diagnostic.checked_marking _ _ rfl⟩
  | mistake s p kind =>
      cases kind <;> exact ⟨rfl, rfl, rfl, Diagnostic.checked_marking _ _ rfl⟩

end NotationFault

/-- A text that is refused is the one that the fault names, and it shows in the text or at
its end. -/
theorem fault_of_ofText {s : String} {e : NotationFault} (h : ofText s = .error e) :
    e.text = s ∧ e.position ≤ s.length := by
  have hcut : Text.CutBefore (0 + s.toList.length) (cutFrom 0 s.toList) := cutBefore_cutFrom 0 _
  rw [Nat.zero_add, String.length_toList] at hcut
  rw [ofText] at h
  split at h
  · rename_i position c hstray
    cases h
    rw [hstray] at hcut
    exact ⟨rfl, Nat.le_of_lt hcut⟩
  · rename_i placed hplaced
    rw [hplaced] at hcut
    obtain ⟨stop, -, rfl⟩ := mapError_eq_error_iff.mp h
    exact ⟨rfl, Text.Placed.place_le hcut _⟩

/-! ## The texts that are read -/

/-- **A text is read if and only if it spells a term.**  The written form of a term is
read as the term.  A text is read as a term if and only if it is cut into tokens that
spell the term.  If they spell none, the text is refused with a diagnostic about an
encoding, which has a message, names the text and marks a place in it or its end. -/
theorem ofText_eq_ok_iff_spells (t : IndexTerm) (s : String) :
    ofText t.text = .ok t ∧
      (ofText s = .ok t ↔ ∃ ms, CutsInto s.toList ms ∧ Spells ms t) ∧
      ((∃ u ms, CutsInto s.toList ms ∧ Spells ms u) ∨
        ∃ e, ofText s = .error e ∧ e.diagnostic.topic = .encoding ∧
          e.diagnostic.subject = s ∧ 0 ≤ e.diagnostic.start ∧ e.diagnostic.start ≤ s.length ∧
          e.diagnostic.checked = .ok e.diagnostic) := by
  have hread : ∀ u, ofText s = .ok u ↔ ∃ ms, CutsInto s.toList ms ∧ Spells ms u := by
    intro u
    constructor
    · intro h
      rw [ofText] at h
      split at h
      · cases h
      · rename_i placed hplaced
        exact ⟨_, cutsInto_of_cutFrom hplaced, ofMarks_eq_ok_iff.mp (mapError_eq_ok_iff.mp h)⟩
    · rintro ⟨ms, hcuts, hspells⟩
      obtain ⟨placed, hplaced, rfl⟩ := hcuts.exists_cutFrom 0
      rw [ofText, hplaced]
      exact mapError_eq_ok_iff.mpr hspells.ofMarks
  refine ⟨ofText_text t, hread t, ?_⟩
  cases h : ofText s with
  | ok u => exact .inl ⟨u, (hread u).mp h⟩
  | error e =>
      obtain ⟨htext, hposition⟩ := fault_of_ofText h
      obtain ⟨htopic, hsubject, hstart, hchecked⟩ := e.diagnostic_spec
      refine .inr ⟨e, rfl, htopic, hsubject.trans htext, ?_, ?_, hchecked⟩
      · rw [hstart]
        exact Int.natCast_nonneg _
      · rw [hstart]
        exact Int.ofNat_le.mpr hposition

/-- An index may have leading zeros and digits of any script; zero is no index. -/
example : ofText "(λ.001\t٢ )" = .ok (app (lam (bound 0)) (bound 1)) ∧
    ofText "λ.0" = .error (.mistake "λ.0" 2 (.zeroIndex ['0'])) := by
  decide +kernel

end BinaryLambda.IndexTerm
