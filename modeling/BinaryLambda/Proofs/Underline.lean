import BinaryLambda.Proofs.IndexTerm.PrefixCode
import BinaryLambda.Proofs.IndexTerm.Spelling
import BinaryLambda.Proofs.Surface.Refusal
import BinaryLambda.Proofs.Term.Mismatch
import BinaryLambda.Text.Lines

set_option autoImplicit false

/-!
# Underlining a refused text

The underlined form of a diagnostic cuts the subject at two bounds and puts a caret and tildes
beneath the part between them.  A diagnostic fits a text if the span begins in the text or at
its end, and reaches at most one column past it (`Diagnostic.Fits`).  Then the first line is
the whole text and the second has its marks beneath the span (`Diagnostic.Fits.underline_eq`).

Each reader finds the span in a way of its own: by the number of the tokens or bits that are
left, one for each character, or by the place of a token, which is in the text as a whole.
`Refuses` has one rule for each reader, and every refusal fits (`Refuses.fits`).
-/

namespace BinaryLambda

/-! ## Texts -/

namespace Text

/-- Cutting at two bounds in order loses nothing, also if they lie behind the text. -/
theorem upTo_between_onwards_of_le (cs : List Char) {start stop : Nat} (h : start ≤ stop) :
    upTo cs start ++ between cs start stop ++ onwards cs stop = cs := by
  have hbound : ∀ i : Nat, bound cs.length i = bound cs.length (min i cs.length : Nat) := by
    intro i
    rw [bound_natCast (Nat.min_le_right _ _), bound, if_neg (by omega), Int.toNat_natCast]
  simp only [upTo, between, onwards, hbound start, hbound stop]
  exact upTo_between_onwards (by omega) (by omega)

section

variable {cs rest : List Char}

theorem linesFrom_cons {c : Char} (hc : endsLine c = false) (line : Option (List Char)) :
    linesFrom line (c :: cs) = linesFrom (some (c :: line.getD [])) cs := by
  have hreturn : c ≠ '\r' := by
    rintro rfl
    cases hc
  rw [linesFrom]
  · rw [hc]
    rfl
  · intro _ h
    exact absurd h hreturn

/-- A line is closed by a line feed behind it. -/
theorem linesFrom_lineFeed (h : ∀ c ∈ cs, endsLine c = false) (line : Option (List Char)) :
    linesFrom line (cs ++ '\n' :: rest) =
      ((line.getD []).reverse ++ cs) :: linesFrom none rest := by
  induction cs generalizing line with
  | nil =>
      rw [List.append_nil]
      cases line <;> rfl
  | cons c cs ih =>
      obtain ⟨hc, hcs⟩ := List.forall_mem_cons.mp h
      rw [List.cons_append, linesFrom_cons hc, ih hcs]
      simp

/-- A line that has begun may be closed by the end of the text. -/
theorem linesFrom_some (h : ∀ c ∈ cs, endsLine c = false) (line : List Char) :
    linesFrom (some line) cs = [line.reverse ++ cs] := by
  induction cs generalizing line with
  | nil => rw [linesFrom, List.append_nil]
  | cons c cs ih =>
      obtain ⟨hc, hcs⟩ := List.forall_mem_cons.mp h
      rw [linesFrom_cons hc, ih hcs]
      simp

end

/-- Two texts without ends of lines, the second not empty, are the lines of the text in which a
line feed separates them. -/
theorem lines_append {a b : String} (ha : ∀ c ∈ a.toList, endsLine c = false)
    (hb : ∀ c ∈ b.toList, endsLine c = false) (hne : b ≠ "") :
    lines (a ++ "\n" ++ b) = [a, b] := by
  have hlist : (a ++ "\n" ++ b).toList = a.toList ++ '\n' :: b.toList := by simp
  obtain ⟨c, cs, hcs⟩ := List.exists_cons_of_ne_nil (mt String.toList_eq_nil_iff.mp hne)
  have hsecond : linesFrom none b.toList = [b.toList] := by
    rw [hcs] at hb ⊢
    obtain ⟨hc, hrest⟩ := List.forall_mem_cons.mp hb
    rw [linesFrom_cons hc, linesFrom_some hrest]
    rfl
  rw [lines, hlist, linesFrom_lineFeed ha, hsecond]
  simp

end Text

/-! ## Two lines -/

namespace Diagnostic

/-- The diagnostic is about the text `s`, it has a message, and its span begins in the text or
at its end and ends at most one column past it. -/
structure Fits (d : Diagnostic) (s : String) : Prop where
  subject_eq : d.subject = s
  start_nonneg : 0 ≤ d.start
  start_le : d.start ≤ s.length
  stop_le : d.stop ≤ s.length + 1
  checked_eq : d.checked = .ok d

/-- A diagnostic that marks a span of its first snippet fits that snippet. -/
theorem fits_marking {topic : Topic} {template s : String} {more : List String} {start stop : Nat}
    (hslots : (Text.Template.emptySlots? template.toList).any (· ≤ (s :: more).length) = true)
    (hstart : start ≤ s.length) (hstop : stop ≤ s.length + 1) :
    (marking topic template (s :: more) start stop).Fits s where
  subject_eq := rfl
  start_nonneg := Int.natCast_nonneg start
  start_le := Int.ofNat_le.mpr hstart
  stop_le := Int.ofNat_le.mpr hstop
  checked_eq := checked_marking start stop hslots

/-- The line with the marks: a caret beneath the column `start` of a text that is moved to the
right by two, and tildes up to the column before `stop`. -/
def markLine (start stop : Int) : String :=
  "  " ++ String.ofList (List.replicate start.toNat ' ') ++
    String.ofList ('^' :: List.replicate (stop - start - 1).toNat '~')

theorem Fits.underline_eq {d : Diagnostic} {s : String} (h : d.Fits s) (colour : Colour) :
    d.underline false colour =
      "  " ++ s ++ "\n" ++ markLine d.start (max d.stop (d.start + 1)) := by
  obtain ⟨start, hstart⟩ := Int.eq_ofNat_of_zero_le h.start_nonneg
  obtain ⟨stop, hstop⟩ := Int.eq_ofNat_of_zero_le (a := d.underlineStop) (by
    rw [underlineStop]
    omega)
  have hle : start ≤ stop := by
    rw [underlineStop] at hstop
    omega
  have hparts := Text.upTo_between_onwards_of_le d.subject.toList hle
  have hsubject : String.ofList (Text.upTo d.subject.toList d.start) ++
      String.ofList (Text.between d.subject.toList d.start d.underlineStop) ++
      String.ofList (Text.onwards d.subject.toList d.underlineStop) = s := by
    rw [hstart, hstop, ← String.ofList_append, ← String.ofList_append, hparts,
      String.ofList_toList, h.subject_eq]
  rw [← hsubject]
  simp only [underline, Paint.boldIn_false, markLine, underlineStop, String.append_assoc]

theorem endsLine_markLine (start stop : Int) :
    ∀ c ∈ (markLine start stop).toList, Text.endsLine c = false := by
  intro c hc
  have hmark : c = ' ' ∨ c = '^' ∨ c = '~' := by
    simp [markLine] at hc
    tauto
  rcases hmark with rfl | rfl | rfl <;> rfl

/-- A text without ends of lines is shown in exactly two lines. -/
theorem Fits.lines_underline {d : Diagnostic} {s : String} (h : d.Fits s)
    (hs : ∀ c ∈ s.toList, Text.endsLine c = false) (colour : Colour) :
    Text.lines (d.underline false colour) =
      ["  " ++ s, markLine d.start (max d.stop (d.start + 1))] := by
  rw [h.underline_eq]
  apply Text.lines_append
  · intro c hc
    rw [String.toList_append, List.mem_append] at hc
    rcases hc with hmargin | hc
    · obtain rfl : c = ' ' := by simpa using hmargin
      rfl
    · exact hs c hc
  · exact endsLine_markLine _ _
  · intro hempty
    have hlist := congrArg String.toList hempty
    simp [markLine] at hlist

end Diagnostic

/-! ## Stray characters -/

/-- The mark of a stray character is beneath the character. -/
theorem StrayCharacter.fits {Allowed : Char → Prop} {e : StrayCharacter} {s : String}
    (htext : e.text = s) (h : Text.FirstStray Allowed s.toList e.position e.character) :
    e.diagnostic.Fits s := by
  subst htext
  have hlt := h.lt_length
  rw [String.length_toList] at hlt
  exact Diagnostic.fits_marking rfl hlt.le (Nat.succ_le_succ hlt.le)

/-! ## The core language -/

namespace Token

theorem fits_of_read {s : String} {e : StrayCharacter} (h : read s = .error e) :
    e.diagnostic.Fits s := by
  obtain ⟨stop, hread, rfl⟩ := mapError_eq_error_iff.mp h
  exact StrayCharacter.fits rfl ((scans_readFrom 0 s.toList).firstStray hread)

end Token

namespace Term

/-- A token is marked by one column, and trailing ones up to the end of the text. -/
theorem GrammarFault.fits {e : GrammarFault} (h : e.position ≤ (Token.spell e.tokens).length) :
    e.diagnostic.Fits (Token.spell e.tokens) := by
  obtain ⟨tokens, expected, rest⟩ := e
  cases expected with
  | finish => exact Diagnostic.fits_marking rfl h (Nat.le_succ _)
  | _ => cases rest <;> exact Diagnostic.fits_marking rfl h (Nat.succ_le_succ h)

theorem tokens_eq_of_ofTokens {ts : List Token} {e : GrammarFault} (h : ofTokens ts = .error e) :
    e.tokens = ts := by
  unfold ofTokens at h
  split at h
  · cases h
    rfl
  · split_ifs at h
    cases h
    rfl

theorem fits_of_ofText {s : String} {e : TextFault} (h : ofText s = .error e) :
    e.diagnostic.Fits s := by
  cases e with
  | stray e => exact Token.fits_of_read (ofText_eq_stray_iff.mp h)
  | grammar e =>
      have hle := (sticksAt_of_ofText h).le
      rw [String.length_toList] at hle
      have htext : Token.spell e.tokens = s := by
        rw [ofText] at h
        split at h
        · cases h
        rename_i ts hread
        obtain ⟨e', he, hgrammar⟩ := mapError_eq_error_iff.mp h
        cases hgrammar
        rw [tokens_eq_of_ofTokens he]
        exact (Token.read_eq_ok_iff.mp hread).1
      subst htext
      exact e.fits hle

end Term

/-! ## The surface syntax -/

namespace Surface

/-- The token that a mistake names, if it names one. -/
def Mistake.token? : Mistake → Option Token
  | unexpected t => some t
  | unknownName letters => some (.word letters)
  | _ => none

theorem head?_noTermAt (ts : List Token) :
    ∀ token ∈ (noTermAt ts).1.token?, token ∈ (noTermAt ts).2.head? := by
  cases ts with
  | nil => exact nofun
  | cons t ts => exact fun _ h => h

/-- A mistake names the token at which reading fails. -/
theorem head?_of_readTerm {left : Option Term} {ts : List Token} {e : Stop}
    (h : readTerm left ts = .error e) : ∀ token ∈ e.1.token?, token ∈ e.2.head? := by
  fun_induction readTerm left ts generalizing e with
  | case1 left inner e' he ih =>
      cases h
      exact ih he
  | case2 left inner operand tail _ e' he _ _ _ ih =>
      cases h
      exact ih he
  | case4 | case5 | case9 =>
      cases h
      intro token htoken
      cases htoken
  | case6 left mark inner _ parameters body _ _ e' he ih =>
      cases h
      exact ih he
  | case7 left mark inner _ parameters body _ _ b rest _ _ e' he _ ih =>
      cases h
      exact ih he
  | case10 left letters rest =>
      cases h
      exact fun _ hword => hword
  | case11 left letters tail operand _ e' he ih =>
      cases h
      exact ih he
  | case13 left digits tail e' he ih =>
      cases h
      exact ih he
  | case16 rest =>
      cases h
      exact head?_noTermAt rest
  | _ => cases h

theorem head?_of_ofTokens {ts : List Token} {e : Stop} (h : ofTokens ts = .error e) :
    ∀ token ∈ e.1.token?, token ∈ e.2.head? := by
  unfold ofTokens at h
  split_ifs at h
  · cases h
    intro token htoken
    cases htoken
  · split at h
    · rename_i e' he
      cases h
      exact head?_of_readTerm he
    · split_ifs at h
      cases h
      exact head?_noTermAt _

/-- An unknown name is marked as a whole, any other mistake by one column. -/
theorem fits_mistake {s : String} {place : Nat} {kind : Mistake} (hplace : place ≤ s.length)
    (htoken : ∀ token ∈ kind.token?, place + token.chars.length ≤ s.length) :
    (Fault.mistake s place kind).diagnostic.Fits s := by
  cases kind with
  | unknownName letters =>
      exact Diagnostic.fits_marking rfl hplace (Nat.le_succ_of_le (htoken (.word letters) rfl))
  | _ => exact Diagnostic.fits_marking rfl hplace (Nat.succ_le_succ hplace)

/-- Every token of a text is in it as a whole. -/
theorem length_le_of_lex {s : String} {placed : List (Text.Placed Token)}
    (hlex : lex s = .ok placed) : ∀ p ∈ placed, p.start + p.token.chars.length ≤ s.length := by
  intro p hp
  obtain ⟨before, after, hs, hstart⟩ := standsAt_of_cutFrom (mapError_eq_ok_iff.mp hlex) p hp
  rw [hstart, ← String.length_toList, hs, List.length_append, List.length_append]
  omega

theorem fits_of_ofText {s : String} {e : Fault} (h : ofText s = .error e) :
    e.diagnostic.Fits s := by
  cases hlex : lex s with
  | error stray =>
      rw [ofText_eq_stray_iff.mpr hlex, Except.error.injEq] at h
      subst h
      obtain ⟨stop, -, rfl⟩ := mapError_eq_error_iff.mp hlex
      exact StrayCharacter.fits rfl (firstStray_of_lex hlex)
  | ok placed =>
      rw [ofText, hlex] at h
      obtain ⟨⟨kind, rest⟩, he, rfl⟩ := mapError_eq_error_iff.mp h
      obtain ⟨front, htokens, -⟩ := exists_front_of_ofTokens (cut_of_lex hlex) he
      obtain ⟨hplace, hfits⟩ :=
        Text.Placed.place_fits (fun token => token.chars.length) (length_le_of_lex hlex) htokens
      exact fits_mistake hplace fun token htoken => hfits token (head?_of_ofTokens he token htoken)

end Surface

/-! ## The written form of index terms -/

namespace IndexTerm

/-- The token that a mistake names, if it names one. -/
def NotationMistake.mark? : NotationMistake → Option Mark
  | unexpected m => some m
  | zeroIndex digits => some (.numeral digits)
  | _ => none

/-- Reading fails between the tokens that are read and those that are left, and a mistake names
the first of these. -/
theorem exists_front_of_readMarks {ms : List Mark} {e : NotationMistake × List Mark}
    (h : readMarks ms = .error e) :
    (∃ front, ms = front ++ e.2) ∧ ∀ m ∈ e.1.mark?, m ∈ e.2.head? := by
  fun_induction readMarks ms generalizing e with
  | case1 =>
      cases h
      refine ⟨⟨[], rfl⟩, fun m hm => ?_⟩
      cases hm
  | case2 digits rest =>
      cases h
      exact ⟨⟨[], rfl⟩, fun _ hm => hm⟩
  | case4 body e' he ih =>
      cases h
      obtain ⟨⟨front, hbody⟩, hmark⟩ := ih he
      exact ⟨⟨.lambda :: front, congrArg (.lambda :: ·) hbody⟩, hmark⟩
  | case6 sides e' he ih =>
      cases h
      obtain ⟨⟨front, hsides⟩, hmark⟩ := ih he
      exact ⟨⟨.leftParen :: front, congrArg (.leftParen :: ·) hsides⟩, hmark⟩
  | case7 sides f rest _ hf e' he _ ih =>
      cases h
      obtain ⟨fs, -, hsides⟩ := exists_spells_of_readMarks hf
      obtain ⟨⟨front, hrest⟩, hmark⟩ := ih he
      dsimp only at hsides
      refine ⟨⟨.leftParen :: (fs ++ front), ?_⟩, hmark⟩
      rw [hsides, hrest, List.cons_append, List.append_assoc]
  | case9 sides f rest _ hf a rest' _ _ _ ha =>
      cases h
      obtain ⟨fs, -, hsides⟩ := exists_spells_of_readMarks hf
      obtain ⟨as, -, hrest⟩ := exists_spells_of_readMarks ha
      dsimp only at hsides hrest
      refine ⟨⟨.leftParen :: (fs ++ as), ?_⟩, fun m hm => ?_⟩
      · rw [hsides, hrest, List.cons_append, List.append_assoc]
      · cases hm
  | case10 rest =>
      cases h
      exact ⟨⟨[], rfl⟩, fun _ hm => hm⟩
  | _ => cases h

theorem exists_front_of_ofMarks {ms : List Mark} {e : NotationMistake × List Mark}
    (h : ofMarks ms = .error e) :
    (∃ front, ms = front ++ e.2) ∧ ∀ m ∈ e.1.mark?, m ∈ e.2.head? := by
  unfold ofMarks at h
  split at h
  · rename_i e' he
    cases h
    exact exists_front_of_readMarks he
  · rename_i t rest _ ht
    split_ifs at h
    cases h
    obtain ⟨front, -, hms⟩ := exists_spells_of_readMarks ht
    refine ⟨⟨front, hms⟩, fun m hm => ?_⟩
    cases hm

/-- A token in front is before `stop` if it ends there, and the others are if they are before
something less. -/
theorem length_le_cons {token : Mark} {start stop stop' : Nat} {more : List (Text.Placed Mark)}
    (hmore : ∀ p ∈ more, p.start + p.token.chars.length ≤ stop') (hle : stop' ≤ stop)
    (htoken : start + token.chars.length ≤ stop) :
    ∀ p ∈ (⟨token, start⟩ :: more : List (Text.Placed Mark)),
      p.start + p.token.chars.length ≤ stop :=
  List.forall_mem_cons.mpr ⟨htoken, fun p hp => (hmore p hp).trans hle⟩

/-- Every token of a text is in it as a whole. -/
theorem length_le_of_cutFrom {start : Nat} {cs : List Char} {placed : List (Text.Placed Mark)}
    (h : cutFrom start cs = .ok placed) :
    ∀ p ∈ placed, p.start + p.token.chars.length ≤ start + cs.length := by
  fun_induction cutFrom start cs generalizing placed with
  | case1 =>
      cases h
      exact List.forall_mem_nil _
  | case2 start rest ih =>
      obtain ⟨more, hmore, rfl⟩ := map_eq_ok_iff.mp h
      exact length_le_cons (ih hmore) (by simp; omega) (by simp [Mark.chars])
  | case3 start rest _ ih | case4 start rest _ _ ih =>
      obtain ⟨more, hmore, rfl⟩ := map_eq_ok_iff.mp h
      exact length_le_cons (ih hmore) (by simp; omega) (by simp [Mark.chars])
  | case5 start c rest _ _ _ _ ih =>
      intro p hp
      exact (ih h p hp).trans (by simp; omega)
  | case6 start c rest =>
      rename_i ih
      obtain ⟨more, hmore, rfl⟩ := map_eq_ok_iff.mp h
      have hlength := congrArg List.length
        (List.takeWhile_append_dropWhile (p := Text.isDigit) (l := rest))
      rw [List.length_append] at hlength
      refine length_le_cons (ih hmore) ?_ ?_
      · change start + (c :: rest.takeWhile Text.isDigit).length + _ ≤ _
        simp only [List.length_cons]
        omega
      · change start + (c :: rest.takeWhile Text.isDigit).length ≤ _
        simp only [List.length_cons]
        omega
  | case7 => cases h

/-- A token that is named is marked as a whole, a missing parenthesis by one column, and any
other mistake up to the end of the text. -/
theorem fits_notationMistake {s : String} {place : Nat} {kind : NotationMistake}
    (hplace : place ≤ s.length)
    (hmark : ∀ m ∈ kind.mark?, place + m.chars.length ≤ s.length) :
    (NotationFault.mistake s place kind).diagnostic.Fits s := by
  cases kind with
  | unexpected m =>
      exact Diagnostic.fits_marking rfl hplace (Nat.le_succ_of_le (hmark m rfl))
  | zeroIndex digits =>
      exact Diagnostic.fits_marking rfl hplace (Nat.le_succ_of_le (hmark (.numeral digits) rfl))
  | unclosed => exact Diagnostic.fits_marking rfl hplace (Nat.succ_le_succ hplace)
  | missingTerm | trailing => exact Diagnostic.fits_marking rfl hplace (Nat.le_succ _)

theorem fits_of_ofText {s : String} {e : NotationFault} (h : ofText s = .error e) :
    e.diagnostic.Fits s := by
  obtain ⟨htext, hposition⟩ := fault_of_ofText h
  rw [ofText] at h
  split at h
  · rename_i place c _
    cases h
    exact Diagnostic.fits_marking rfl hposition (Nat.succ_le_succ hposition)
  · rename_i placed hplaced
    obtain ⟨⟨kind, rest⟩, he, rfl⟩ := mapError_eq_error_iff.mp h
    obtain ⟨⟨front, htokens⟩, hmark⟩ := exists_front_of_ofMarks he
    have hlength := length_le_of_cutFrom hplaced
    rw [Nat.zero_add, String.length_toList] at hlength
    obtain ⟨hplace, hfits⟩ := Text.Placed.place_fits (fun m => m.chars.length) hlength htokens
    exact fits_notationMistake hplace fun m hm => hfits m (hmark m hm)

/-! ## Bits -/

/-- A missing term is marked by one column, any other mistake up to the end of the text. -/
theorem fits_codeMistake {s : String} {place : Nat} {kind : CodeMistake}
    (hplace : place ≤ s.length) : (BitsFault.mistake s place kind).diagnostic.Fits s := by
  cases kind with
  | missingTerm => exact Diagnostic.fits_marking rfl hplace (Nat.succ_le_succ hplace)
  | insideIndex | insideTag | trailing =>
      exact Diagnostic.fits_marking rfl hplace (Nat.le_succ _)

theorem fits_of_ofBits {s : String} {e : BitsFault} (h : ofBits s = .error e) :
    e.diagnostic.Fits s := by
  unfold ofBits at h
  split_ifs at h with hempty
  · cases h
    rw [String.isEmpty_iff.mp hempty]
    exact Diagnostic.fits_marking rfl (Nat.le_refl _) (Nat.le_succ _)
  · split at h
    · rename_i place c hread
      cases h
      have hlt := ((scans_readBits 0 s.toList).firstStray hread).lt_length
      rw [String.length_toList] at hlt
      exact Diagnostic.fits_marking rfl hlt.le (Nat.succ_le_succ hlt.le)
    · rename_i bs hread
      obtain ⟨⟨kind, rest⟩, -, rfl⟩ := mapError_eq_error_iff.mp h
      have hlength : bs.length = s.length := by
        rw [← String.length_toList, readBits_eq_ok_iff.mp hread, List.length_map]
      apply fits_codeMistake
      rw [← hlength]
      exact Nat.sub_le _ _

end IndexTerm

/-! ## Every refusal -/

/-- A reader refuses the text with a diagnostic. -/
inductive Refuses (s : String) : Diagnostic → Prop where
  | tokens {e : StrayCharacter} : Token.read s = .error e → Refuses s e.diagnostic
  | term {e : Term.TextFault} : Term.ofText s = .error e → Refuses s e.diagnostic
  | surface {e : Surface.Fault} : Surface.ofText s = .error e → Refuses s e.diagnostic
  | bits {e : IndexTerm.BitsFault} : IndexTerm.ofBits s = .error e → Refuses s e.diagnostic
  | indexTerm {e : IndexTerm.NotationFault} : IndexTerm.ofText s = .error e →
      Refuses s e.diagnostic

theorem Refuses.fits {s : String} {d : Diagnostic} (h : Refuses s d) : d.Fits s := by
  cases h with
  | tokens h => exact Token.fits_of_read h
  | term h => exact Term.fits_of_ofText h
  | surface h => exact Surface.fits_of_ofText h
  | bits h => exact IndexTerm.fits_of_ofBits h
  | indexTerm h => exact IndexTerm.fits_of_ofText h

/-- **Every refusal is underlined where it belongs.**  The diagnostic with which a text is
refused, by any reader, is about the text.  Its span begins in the text or at its end, has at
least one column and ends at most one column past the text.  Underlined without colours, it is
the text and beneath it a caret and tildes, one for each column of the span; these are its two
lines if the text has no end of a line. -/
theorem underlined_of_refuses {s : String} {d : Diagnostic} (h : Refuses s d) :
    d.checked = .ok d ∧ d.subject = s ∧ 0 ≤ d.start ∧ d.start ≤ s.length ∧
      d.start < max d.stop (d.start + 1) ∧ max d.stop (d.start + 1) ≤ s.length + 1 ∧
      ∀ colour,
        d.underline false colour =
          "  " ++ s ++ "\n" ++ Diagnostic.markLine d.start (max d.stop (d.start + 1)) ∧
        ((∀ c ∈ s.toList, Text.endsLine c = false) →
          Text.lines (d.underline false colour) =
            ["  " ++ s, Diagnostic.markLine d.start (max d.stop (d.start + 1))]) := by
  obtain ⟨hsubject, hnonneg, hstart, hstop, hchecked⟩ := h.fits
  exact ⟨hchecked, hsubject, hnonneg, hstart, by omega, by omega,
    fun colour => ⟨h.fits.underline_eq colour, fun hs => h.fits.lines_underline hs colour⟩⟩

/-- The operand after the parenthesis is missing, so the mark is one column past the text. -/
theorem underlined_of_refuses_unclosed :
    ∃ d, Refuses "x (" d ∧ Text.lines (d.underline false .red) = ["  x (", "     ^"] := by
  have h : Refuses "x (" (Surface.Fault.mistake "x (" 3 .missingTerm).diagnostic :=
    .surface (by decide +kernel)
  have hs : ∀ c ∈ "x (".toList, Text.endsLine c = false := by
    intro c hc
    have hmem : c = 'x' ∨ c = ' ' ∨ c = '(' := by simpa using hc
    rcases hmem with rfl | rfl | rfl <;> rfl
  obtain ⟨-, -, -, -, -, -, hunderline⟩ := underlined_of_refuses h
  exact ⟨_, h, (hunderline .red).2 hs⟩

end BinaryLambda
