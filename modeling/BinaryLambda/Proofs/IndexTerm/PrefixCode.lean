import BinaryLambda.Proofs.Diagnostic
import BinaryLambda.Proofs.IndexTerm.Code
import BinaryLambda.Proofs.Text.Offence

set_option autoImplicit false

/-!
# Index terms: the code is a prefix code

A sequence of bits is the code of a term, or the code of one term and more bits, or it is
cut off: the beginning of a code, with no code at its front.  Each of them shows when the
sequence is read (`bits_classified`).

A code is made of symbols, which are the tags and the indices.  Reading fails inside a
symbol or where the next one is missing, and the symbols before that place can be completed
to a code, so a sequence without a code at its front is a beginning of one (`BreaksOff`).
-/

namespace BinaryLambda.IndexTerm

/-! ## Symbols -/

/-- What a code is made of. -/
inductive Symbol where
  | lam
  | app
  | index (between : Nat)

/-- The bits of a symbol: a tag of two bits, or ones and a zero. -/
def Symbol.bits : Symbol → List Bool
  | lam => [false, false]
  | app => [false, true]
  | index n => List.replicate (n + 1) true ++ [false]

/-- The bits of symbols. -/
def symbolBits (symbols : List Symbol) : List Bool := symbols.flatMap Symbol.bits

theorem symbolBits_cons (symbol : Symbol) (symbols : List Symbol) :
    symbolBits (symbol :: symbols) = symbol.bits ++ symbolBits symbols := rfl

theorem symbolBits_append (symbols more : List Symbol) :
    symbolBits (symbols ++ more) = symbolBits symbols ++ symbolBits more :=
  List.flatMap_append

/-- The symbols of the code of a term. -/
def symbols : IndexTerm → List Symbol
  | bound n => [.index n]
  | lam b => .lam :: b.symbols
  | app f a => .app :: (f.symbols ++ a.symbols)

theorem symbolBits_symbols (t : IndexTerm) : symbolBits t.symbols = t.code := by
  induction t with
  | bound n => exact List.flatMap_singleton _ _
  | lam b ih =>
      rw [symbols, symbolBits_cons, ih, code_lam]
      rfl
  | app f a ihf iha =>
      rw [symbols, symbolBits_cons, symbolBits_append, ihf, iha, code_app]
      rfl

/-- What is left of a symbol before its last bit: nothing, one bit of a tag, or ones. -/
inductive Unfinished : List Bool → Prop where
  | missing : Unfinished []
  | tag : Unfinished [false]
  | index (n : Nat) : Unfinished (List.replicate (n + 1) true)

/-! ## Codes and what follows them -/

/-- A code says where it ends. -/
theorem codeOnto_inj {t u : IndexTerm} {rest rest' : List Bool}
    (h : t.codeOnto rest = u.codeOnto rest') : t = u ∧ rest = rest' := by
  have hread := readFront_codeOnto t rest
  rw [h] at hread
  obtain ⟨r, hr, hrest⟩ := hread
  obtain ⟨r', hr', hrest'⟩ := readFront_codeOnto u rest'
  rw [hr] at hr'
  cases hr'
  exact ⟨rfl, hrest.symm.trans hrest'⟩

/-- Bits after a code are refused. -/
theorem ofCode_codeOnto (t : IndexTerm) {rest : List Bool} (h : rest ≠ []) :
    ofCode (t.codeOnto rest) = .error (.trailing, rest) := by
  obtain ⟨⟨rest', _⟩, ht, hrest⟩ := readFront_codeOnto t rest
  dsimp only at hrest
  subst hrest
  rw [ofCode, ht]
  dsimp only
  rw [if_neg (by simpa using h)]

/-! ## Sequences that are cut off -/

/-- The bits `rest` are what there is of a symbol after the symbols of `front`, and there is
a code that goes on from them. -/
structure BreaksOff (front rest : List Bool) : Prop where
  symbols : ∃ symbols, front = symbolBits symbols
  unfinished : Unfinished rest
  completes : ∃ more t, more ≠ [] ∧ front ++ rest ++ more = code t

theorem BreaksOff.lam {front rest : List Bool} (h : BreaksOff front rest) :
    BreaksOff (false :: false :: front) rest where
  symbols := by
    obtain ⟨symbols, rfl⟩ := h.symbols
    exact ⟨.lam :: symbols, rfl⟩
  unfinished := h.unfinished
  completes := by
    obtain ⟨more, b, hmore, hb⟩ := h.completes
    refine ⟨more, .lam b, hmore, ?_⟩
    rw [code_lam, ← hb]
    rfl

theorem BreaksOff.function {front rest : List Bool} (h : BreaksOff front rest) :
    BreaksOff (false :: true :: front) rest where
  symbols := by
    obtain ⟨symbols, rfl⟩ := h.symbols
    exact ⟨.app :: symbols, rfl⟩
  unfinished := h.unfinished
  completes := by
    obtain ⟨more, f, hmore, hf⟩ := h.completes
    refine ⟨more ++ (bound 0).code, app f (bound 0), by simp [hmore], ?_⟩
    rw [code_app, ← hf]
    simp

theorem BreaksOff.argument {front rest : List Bool} (h : BreaksOff front rest) (f : IndexTerm) :
    BreaksOff (false :: true :: f.codeOnto front) rest where
  symbols := by
    obtain ⟨symbols, rfl⟩ := h.symbols
    refine ⟨.app :: (f.symbols ++ symbols), ?_⟩
    rw [symbolBits_cons, symbolBits_append, symbolBits_symbols, codeOnto_eq]
    rfl
  unfinished := h.unfinished
  completes := by
    obtain ⟨more, a, hmore, ha⟩ := h.completes
    refine ⟨more, app f a, hmore, ?_⟩
    rw [code_app, ← ha, codeOnto_eq]
    simp

theorem eq_replicate_of_readOnes_none {bs : List Bool} (h : readOnes bs = none) :
    bs = List.replicate bs.length true := by
  fun_induction readOnes bs with
  | case1 => rfl
  | case2 => cases h
  | case3 bs ih =>
      rw [Option.map_eq_none_iff] at h
      rw [List.length_cons, List.replicate_succ, ← ih h]

/-- Where reading fails, the bits break off. -/
theorem breaksOff_of_readFront {bs rest : List Bool} {kind : CodeMistake}
    (h : readFront bs = .error (kind, rest)) :
    ∃ front, bs = front ++ rest ∧ BreaksOff front rest := by
  fun_induction readFront bs with
  | case1 =>
      cases h
      exact ⟨[], rfl, ⟨[], rfl⟩, .missing, (bound 0).code, bound 0, by simp, rfl⟩
  | case2 bs hones =>
      cases h
      have hall := eq_replicate_of_readOnes_none hones
      have hones : true :: bs = List.replicate (bs.length + 1) true := by
        rw [List.replicate_succ, ← hall]
      refine ⟨[], rfl, ⟨[], rfl⟩, ?_, [false], bound bs.length, by simp, ?_⟩
      · rw [hones]
        exact .index bs.length
      · rw [hones]
        rfl
  | case3 => cases h
  | case4 =>
      cases h
      exact ⟨[], rfl, ⟨[], rfl⟩, .tag, false :: (bound 0).code, lam (bound 0), by simp, rfl⟩
  | case5 body e he ih =>
      cases h
      obtain ⟨front, hbody, hbreaks⟩ := ih he
      exact ⟨_, by rw [hbody]; rfl, hbreaks.lam⟩
  | case6 => cases h
  | case7 sides e he ih =>
      cases h
      obtain ⟨front, hsides, hbreaks⟩ := ih he
      exact ⟨_, by rw [hsides]; rfl, hbreaks.function⟩
  | case8 sides f rest' _ hf e he ihf iha =>
      cases h
      obtain ⟨front, hrest, hbreaks⟩ := iha he
      have hsides : sides = f.codeOnto rest' := eq_codeOnto_of_readFront hf
      refine ⟨_, ?_, hbreaks.argument f⟩
      rw [hsides, hrest, List.cons_append, List.cons_append, codeOnto_append]
  | case9 => cases h

/-- Bits that break off have no code at their front. -/
theorem ne_codeOnto_of_readFront {bs rest : List Bool} {kind : CodeMistake}
    (h : readFront bs = .error (kind, rest)) (t : IndexTerm) (more : List Bool) :
    bs ≠ t.codeOnto more := by
  rintro rfl
  obtain ⟨r, hr, -⟩ := readFront_codeOnto t more
  rw [hr] at h
  cases h

/-- A sequence of bits is a code, a code and more bits, or it breaks off. -/
theorem ofCode_cases (bs : List Bool) :
    (∃ t, bs = code t) ∨ (∃ t rest, rest ≠ [] ∧ bs = codeOnto t rest) ∨
      ∃ kind front rest, ofCode bs = .error (kind, rest) ∧ bs = front ++ rest ∧
        BreaksOff front rest ∧ ∀ t more, bs ≠ codeOnto t more := by
  cases hread : readFront bs with
  | error e =>
      obtain ⟨kind, rest⟩ := e
      obtain ⟨front, hfront, hbreaks⟩ := breaksOff_of_readFront hread
      refine .inr (.inr ⟨kind, front, rest, ?_, hfront, hbreaks, ne_codeOnto_of_readFront hread⟩)
      rw [ofCode, hread]
  | ok r =>
      obtain ⟨t, rest, _⟩ := r
      have hbs : bs = t.codeOnto rest := eq_codeOnto_of_readFront hread
      by_cases hempty : rest = []
      · subst hempty
        exact .inl ⟨t, hbs⟩
      · exact .inr (.inl ⟨t, rest, hempty, hbs⟩)

/-! ## Texts of bits -/

/-- A character that writes a bit. -/
def IsBit (c : Char) : Prop := c = '0' ∨ c = '1'

theorem isBit_iff {c : Char} : IsBit c ↔ ∃ b, c = bitChar b := by
  rw [Bool.exists_bool]
  rfl

theorem scans_readBits (start : Nat) (cs : List Char) :
    Text.Scans IsBit start cs (readBits start cs) := by
  fun_induction readBits start cs with
  | case1 => exact List.forall_mem_nil _
  | case2 start c cs hc =>
      apply Text.scans_stray
      rw [isBit_iff]
      rintro ⟨b, hb⟩
      rw [bit?_eq_some_iff.mpr hb] at hc
      cases hc
  | case3 start c cs b hc ih =>
      exact (ih.map _).cons (isBit_iff.mpr ⟨b, bit?_eq_some_iff.mp hc⟩)

theorem length_spell (bs : List Bool) : (spell bs).length = bs.length := by
  rw [← String.length_toList, toList_spell, List.length_map]

theorem spell_eq_empty_iff {bs : List Bool} : spell bs = "" ↔ bs = [] := by
  rw [← String.toList_eq_nil_iff, toList_spell, List.map_eq_nil_iff]

/-- The text of a beginning of the bits, and what follows it. -/
theorem spell_eq_append_iff {bs front : List Bool} {r : String} :
    spell bs = spell front ++ r ↔ ∃ rest, bs = front ++ rest ∧ r = spell rest := by
  rw [← String.toList_inj, String.toList_append, toList_spell, toList_spell]
  constructor
  · intro h
    obtain ⟨front', rest, rfl, hfront, hrest⟩ := List.map_eq_append_iff.mp h
    rw [(List.map_inj_right fun _ _ hb => bitChar_injective hb).mp hfront]
    refine ⟨rest, rfl, ?_⟩
    rw [spell, hrest, String.ofList_toList]
  · rintro ⟨rest, rfl, rfl⟩
    rw [List.map_append, toList_spell]

theorem exists_eq_spell {s : String} (h : ∀ c ∈ s.toList, IsBit c) : ∃ bs, s = spell bs := by
  cases hread : readBits 0 s.toList with
  | ok bs =>
      refine ⟨bs, ?_⟩
      rw [spell, ← readBits_eq_ok_iff.mp hread, String.ofList_toList]
  | error e =>
      obtain ⟨c, hc, hnot⟩ := (scans_readBits 0 s.toList).exists_error_iff.mp ⟨e, hread⟩
      exact absurd (h c hc) hnot

/-- A text of bits is read as its bits are. -/
theorem ofBits_spell {bs : List Bool} (h : bs ≠ []) :
    ofBits (spell bs) =
      (ofCode bs).mapError fun e => .mistake (spell bs) (bs.length - e.2.length) e.1 := by
  have hne : (spell bs).isEmpty = false := by
    rw [Bool.eq_false_iff, ne_eq, String.isEmpty_iff, spell_eq_empty_iff]
    exact h
  have hread : readBits 0 (spell bs).toList = .ok bs := readBits_eq_ok_iff.mpr (toList_spell bs)
  rw [ofBits, hne, hread]
  rfl

/-! ## The three kinds of texts -/

/-- What a text of bits can be. -/
inductive Shape where
  /-- a code -/
  | whole
  /-- a code and more bits -/
  | extended
  /-- the beginning of a code, with no code at its front -/
  | cutOff
  deriving DecidableEq, Repr, Inhabited

/-- The text is of the shape. -/
def Shape.Describes : Shape → String → Prop
  | whole, s => ∃ t : IndexTerm, s = t.bits
  | extended, s => ∃ (t : IndexTerm) (r : String), r ≠ "" ∧ s = t.bits ++ r
  | cutOff, s =>
    (∃ (t : IndexTerm) (r : String), r ≠ "" ∧ t.bits = s ++ r) ∧
      ∀ (t : IndexTerm) (r : String), s ≠ t.bits ++ r

theorem spell_eq_bits_iff {bs : List Bool} {t : IndexTerm} : spell bs = t.bits ↔ bs = t.code :=
  spell_injective.eq_iff

theorem spell_eq_bits_append_iff {bs : List Bool} {t : IndexTerm} {r : String} :
    spell bs = t.bits ++ r ↔ ∃ rest, bs = t.codeOnto rest ∧ r = spell rest := by
  simp only [codeOnto_eq]
  exact spell_eq_append_iff

theorem whole_describes_iff {bs : List Bool} :
    Shape.whole.Describes (spell bs) ↔ ∃ t, bs = code t :=
  exists_congr fun _ => spell_eq_bits_iff

theorem extended_describes_iff {bs : List Bool} :
    Shape.extended.Describes (spell bs) ↔ ∃ t rest, rest ≠ [] ∧ bs = codeOnto t rest := by
  constructor
  · rintro ⟨t, r, hr, hs⟩
    obtain ⟨rest, hbs, rfl⟩ := spell_eq_bits_append_iff.mp hs
    exact ⟨t, rest, fun hrest => hr (spell_eq_empty_iff.mpr hrest), hbs⟩
  · rintro ⟨t, rest, hrest, hbs⟩
    refine ⟨t, spell rest, fun hr => hrest (spell_eq_empty_iff.mp hr), ?_⟩
    exact spell_eq_bits_append_iff.mpr ⟨rest, hbs, rfl⟩

theorem cutOff_describes_iff {bs : List Bool} :
    Shape.cutOff.Describes (spell bs) ↔
      (∃ more t, more ≠ [] ∧ bs ++ more = code t) ∧ ∀ t more, bs ≠ codeOnto t more := by
  refine and_congr ⟨?_, ?_⟩ ⟨?_, ?_⟩
  · rintro ⟨t, r, hr, ht⟩
    obtain ⟨more, hmore, rfl⟩ := spell_eq_append_iff.mp ht
    exact ⟨more, t, fun hnil => hr (spell_eq_empty_iff.mpr hnil), hmore.symm⟩
  · rintro ⟨more, t, hmore, ht⟩
    refine ⟨t, spell more, fun hr => hmore (spell_eq_empty_iff.mp hr), ?_⟩
    exact spell_eq_append_iff.mpr ⟨more, ht.symm, rfl⟩
  · rintro h t more rfl
    exact h t (spell more) (spell_eq_bits_append_iff.mpr ⟨more, rfl, rfl⟩)
  · intro h t r hs
    obtain ⟨rest, hbs, -⟩ := spell_eq_bits_append_iff.mp hs
    exact h t rest hbs

/-- A text of bits is of one shape. -/
theorem existsUnique_shape (bs : List Bool) : ∃! shape : Shape, shape.Describes (spell bs) := by
  have hwhole : ∀ t, bs = code t → bs = codeOnto t [] := fun t h => h
  rcases ofCode_cases bs with
    ⟨t, ht⟩ | ⟨t, rest, hrest, ht⟩ | ⟨kind, front, rest, -, hbs, hbreaks, hnone⟩
  · refine ⟨.whole, whole_describes_iff.mpr ⟨t, ht⟩, ?_⟩
    rintro (_ | _ | _) h
    · rfl
    · obtain ⟨u, rest, hrest, hu⟩ := extended_describes_iff.mp h
      exact absurd (codeOnto_inj ((hwhole t ht).symm.trans hu)).2.symm hrest
    · exact absurd (hwhole t ht) ((cutOff_describes_iff.mp h).2 t [])
  · refine ⟨.extended, extended_describes_iff.mpr ⟨t, rest, hrest, ht⟩, ?_⟩
    rintro (_ | _ | _) h
    · obtain ⟨u, hu⟩ := whole_describes_iff.mp h
      exact absurd (codeOnto_inj ((hwhole u hu).symm.trans ht)).2.symm hrest
    · rfl
    · exact absurd ht ((cutOff_describes_iff.mp h).2 t rest)
  · obtain ⟨more, t, hmore, ht⟩ := hbreaks.completes
    rw [← hbs] at ht
    refine ⟨.cutOff, cutOff_describes_iff.mpr ⟨⟨more, t, hmore, ht⟩, hnone⟩, ?_⟩
    rintro (_ | _ | _) h
    · obtain ⟨u, hu⟩ := whole_describes_iff.mp h
      exact absurd (hwhole u hu) (hnone u [])
    · obtain ⟨u, rest', -, hu⟩ := extended_describes_iff.mp h
      exact absurd hu (hnone u rest')
    · rfl

/-! ## Refusals -/

/-- The diagnostic of a mistake marks its bits from the symbol on that cannot be read, and it
has a message. -/
theorem mistake_diagnostic_spec (s : String) (position : Nat) (kind : CodeMistake) :
    (BitsFault.mistake s position kind).diagnostic.topic = .encoding ∧
      (BitsFault.mistake s position kind).diagnostic.subject = s ∧
      (BitsFault.mistake s position kind).diagnostic.start = position ∧
      (BitsFault.mistake s position kind).diagnostic.checked =
        .ok (BitsFault.mistake s position kind).diagnostic := by
  cases kind <;> exact ⟨rfl, rfl, rfl, Diagnostic.checked_marking _ _ rfl⟩

/-- A text with other characters is refused at the first of them. -/
theorem exists_noBit {s : String} (h : ∃ c ∈ s.toList, ¬ IsBit c) :
    ∃ place c, ofBits s = .error (.noBit s place c) ∧ Text.FirstStray IsBit s.toList place c := by
  have hscans := scans_readBits 0 s.toList
  obtain ⟨⟨place, c⟩, hread⟩ := hscans.exists_error_iff.mpr h
  refine ⟨place, c, ?_, hscans.firstStray hread⟩
  have hne : s.isEmpty = false := by
    obtain ⟨d, hd, -⟩ := h
    rw [Bool.eq_false_iff, ne_eq, String.isEmpty_iff]
    rintro rfl
    cases hd
  rw [ofBits, hne, hread]
  rfl

/-- A text of bits that is cut off is refused where its last symbol is not finished. -/
theorem exists_ofBits_eq_error {bs : List Bool} (hne : bs ≠ [])
    (h : ∀ t more, bs ≠ codeOnto t more) :
    ∃ kind symbols rest, ofBits (spell bs) =
        .error (.mistake (spell bs) (symbolBits symbols).length kind) ∧
      bs = symbolBits symbols ++ rest ∧ Unfinished rest := by
  rcases ofCode_cases bs with
    ⟨t, ht⟩ | ⟨t, rest, -, ht⟩ | ⟨kind, front, rest, hread, hbs, hbreaks, -⟩
  · exact absurd ht (h t [])
  · exact absurd ht (h t rest)
  · obtain ⟨symbols, rfl⟩ := hbreaks.symbols
    refine ⟨kind, symbols, rest, ?_, hbs, hbreaks.unfinished⟩
    have hlength : bs.length - rest.length = (symbolBits symbols).length := by
      rw [hbs, List.length_append]
      exact Nat.add_sub_cancel _ _
    rw [ofBits_spell hne, hread, ← hlength]
    rfl

theorem ofBits_extended (t : IndexTerm) {rest : List Bool} (h : rest ≠ []) :
    ofBits (spell (t.codeOnto rest)) =
      .error (.mistake (spell (t.codeOnto rest)) t.code.length .trailing) := by
  have hne : t.codeOnto rest ≠ [] := by
    rw [codeOnto_eq]
    exact List.append_ne_nil_of_left_ne_nil (code_ne_nil t) rest
  have hlength : (t.codeOnto rest).length - rest.length = t.code.length := by
    rw [codeOnto_eq, List.length_append]
    exact Nat.add_sub_cancel _ _
  rw [ofBits_spell hne, ofCode_codeOnto t h, ← hlength]
  rfl

/-- **The code is a prefix code.**  A text of bits, if it is not empty, has exactly one of
three shapes, and how it is read shows which.  The code of a term is read as the term.  The
code of a term and more bits are refused for the bits after the code, and it is the code of
no other term.  A text that is cut off is refused where its last symbol is not finished:
before it there are whole symbols, and from it on nothing, one zero or ones alone.  A text
with other characters is refused at the first of them.  The diagnostics have a message. -/
theorem bits_classified (s : String) :
    (s ≠ "" → (∀ c ∈ s.toList, IsBit c) →
      (∃! shape : Shape, shape.Describes s) ∧
      (∀ t : IndexTerm, s = t.bits → ofBits s = .ok t) ∧
      (∀ (t : IndexTerm) (r : String), r ≠ "" → s = t.bits ++ r →
        (∀ (u : IndexTerm) (r' : String), s = u.bits ++ r' → u = t) ∧
          ∃ e, ofBits s = .error e ∧ e = .mistake s t.bits.length .trailing ∧
            e.diagnostic.topic = .encoding ∧ e.diagnostic.start = t.bits.length ∧
            e.diagnostic.stop = s.length ∧ e.diagnostic.checked = .ok e.diagnostic) ∧
      (Shape.cutOff.Describes s →
        ∃ e symbols rest, ofBits s = .error e ∧ s = spell (symbolBits symbols ++ rest) ∧
          Unfinished rest ∧ e.diagnostic.topic = .encoding ∧
          e.diagnostic.start = (symbolBits symbols).length ∧
          e.diagnostic.checked = .ok e.diagnostic)) ∧
    ((∃ c ∈ s.toList, ¬ IsBit c) →
      ∃ e place c, ofBits s = .error e ∧ Text.FirstStray IsBit s.toList place c ∧
        e.diagnostic.topic = .encoding ∧ e.diagnostic.start = place ∧
        e.diagnostic.stop = place + 1 ∧ e.diagnostic.checked = .ok e.diagnostic) := by
  refine ⟨?_, ?_⟩
  · intro hne hbits
    obtain ⟨bs, rfl⟩ := exists_eq_spell hbits
    have hbs : bs ≠ [] := fun hnil => hne (spell_eq_empty_iff.mpr hnil)
    refine ⟨existsUnique_shape bs, fun t => ofBits_eq_ok_iff.mpr, ?_, ?_⟩
    · intro t r hr hs
      obtain ⟨rest, rfl, rfl⟩ := spell_eq_bits_append_iff.mp hs
      have hrest : rest ≠ [] := fun hnil => hr (spell_eq_empty_iff.mpr hnil)
      refine ⟨?_, _, ofBits_extended t hrest, ?_, ?_⟩
      · intro u r' hu
        obtain ⟨rest', hu, -⟩ := spell_eq_bits_append_iff.mp hu
        exact (codeOnto_inj hu).1.symm
      · rw [← length_spell]
        rfl
      · obtain ⟨htopic, -, hstart, hchecked⟩ :=
          mistake_diagnostic_spec (spell (t.codeOnto rest)) t.code.length .trailing
        refine ⟨htopic, ?_, rfl, hchecked⟩
        rw [hstart, ← length_spell]
        rfl
    · intro hcut
      obtain ⟨-, hnone⟩ := cutOff_describes_iff.mp hcut
      obtain ⟨kind, symbols, rest, hread, hsplit, hunfinished⟩ := exists_ofBits_eq_error hbs hnone
      obtain ⟨htopic, -, hstart, hchecked⟩ :=
        mistake_diagnostic_spec (spell bs) (symbolBits symbols).length kind
      exact ⟨_, symbols, rest, hread, congrArg spell hsplit, hunfinished, htopic, hstart, hchecked⟩
  · intro hother
    obtain ⟨place, c, hread, hstray⟩ := exists_noBit hother
    exact ⟨_, place, c, hread, hstray, rfl, rfl, rfl, Diagnostic.checked_marking _ _ rfl⟩

/-- A tag, an index and a tag are whole; the index after them has no zero. -/
example : ofBits "0110001" = .error (.mistake "0110001" 6 .insideIndex) := by cbv

end BinaryLambda.IndexTerm
