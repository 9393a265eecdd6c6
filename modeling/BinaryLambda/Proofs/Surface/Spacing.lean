import BinaryLambda.Proofs.Diagnostic
import BinaryLambda.Proofs.Surface.Cutting
import Mathlib.Data.List.Basic
import Mathlib.Logic.Relation

set_option autoImplicit false

/-!
# Surface syntax: tokens and the white space between them

The tokens of a text are all of it but white space, and no word or numeral could be longer
(`Divides`); there is one way to divide a text so (`cutFrom_eq_ok_iff_divides`).  White space
tells nothing but where a run of letters or of digits ends: texts have the same tokens if
and only if they come from each other by white space that is put in or taken out outside of
such runs (`map_token_eq_iff_respaced`).
-/

namespace BinaryLambda.Surface

/-! ## What extends a token -/

theorem Token.chars_ne_nil {t : Token} (ht : t.Cut) : t.chars ≠ [] := by
  cases t with
  | word _ | numeral _ => exact ht.1
  | lambda _ | dot | leftParen | rightParen => exact List.cons_ne_nil _ _

/-- A token with a letter in it is a word. -/
theorem Token.extendedBy_eq_isLetter {t : Token} (ht : t.Cut) {c : Char} (hc : c ∈ t.chars)
    (hletter : isLetter c = true) : t.extendedBy = isLetter := by
  cases t with
  | word letters => rfl
  | lambda mark =>
      obtain rfl := List.mem_singleton.mp hc
      rcases ht with rfl | rfl <;> cases hletter
  | dot | leftParen | rightParen =>
      obtain rfl := List.mem_singleton.mp hc
      cases hletter
  | numeral digits =>
      rw [isLetter_of_isNumeralDigit (ht.2 c hc)] at hletter
      cases hletter

/-- A token with a digit in it is a numeral. -/
theorem Token.extendedBy_eq_isNumeralDigit {t : Token} (ht : t.Cut) {c : Char}
    (hc : c ∈ t.chars) (hdigit : isNumeralDigit c = true) : t.extendedBy = isNumeralDigit := by
  cases t with
  | numeral digits => rfl
  | lambda mark =>
      obtain rfl := List.mem_singleton.mp hc
      rcases ht with rfl | rfl <;> cases hdigit
  | dot | leftParen | rightParen =>
      obtain rfl := List.mem_singleton.mp hc
      cases hdigit
  | word letters =>
      have hletter := ht.2 c hc
      rw [isLetter_of_isNumeralDigit hdigit] at hletter
      cases hletter

/-- If a character of one token extends another, the characters of the other extend the one. -/
theorem Token.extendedBy_comm {t u : Token} (ht : t.Cut) (hu : u.Cut) {c d : Char}
    (hc : c ∈ t.chars) (hd : d ∈ u.chars) (h : u.extendedBy c = true) :
    t.extendedBy d = true := by
  cases u with
  | word letters =>
      rw [extendedBy_eq_isLetter ht hc h]
      exact hu.2 d hd
  | numeral digits =>
      rw [extendedBy_eq_isNumeralDigit ht hc h]
      exact hu.2 d hd
  | lambda _ | dot | leftParen | rightParen => cases h

/-! ## Dividing a text -/

/-- The token stands in the characters, the first of which is at `start`, and neither of the
characters beside it would be part of it. -/
def StandsWhole (cs : List Char) (start : Nat) (p : Text.Placed Token) : Prop :=
  ∃ before after, cs = before ++ (p.token.chars ++ after) ∧ p.start = start + before.length ∧
    (∀ c ∈ before.getLast?, p.token.extendedBy c = false) ∧
    ∀ c ∈ after.head?, p.token.extendedBy c = false

/-- The tokens stand in the characters, the first of which is at `start`, one after the other,
and are as long as they can be.  All that is outside of them is white space. -/
structure Divides (start : Nat) (cs : List Char) (placed : List (Text.Placed Token)) : Prop where
  cut : ∀ p ∈ placed, p.token.Cut
  increasing : placed.Pairwise fun p q => p.start < q.start
  apart : placed.Pairwise fun p q => p.start + p.token.chars.length ≤ q.start
  whole : ∀ p ∈ placed, StandsWhole cs start p
  blank : ∀ (i : Nat) (c : Char), cs[i]? = some c →
    (∀ p ∈ placed, ¬ (p.start ≤ start + i ∧ start + i < p.start + p.token.chars.length)) →
    Text.isBlank c = true

section

variable {start : Nat} {cs rest : List Char} {c : Char} {t : Token} {p : Text.Placed Token}
  {placed : List (Text.Placed Token)}

theorem StandsWhole.le (h : StandsWhole cs start p) : start ≤ p.start := by
  obtain ⟨_, _, _, hstart, _⟩ := h
  omega

/-- White space in front is beside no token in the way. -/
theorem StandsWhole.cons_blank (h : StandsWhole cs (start + 1) p) (hc : Text.isBlank c = true) :
    StandsWhole (c :: cs) start p := by
  obtain ⟨before, after, rfl, hstart, hbefore, hafter⟩ := h
  refine ⟨c :: before, after, rfl, by rw [hstart, List.length_cons]; omega, ?_, hafter⟩
  cases before with
  | nil =>
      rintro d ⟨⟩
      exact p.token.extendedBy_of_isBlank hc
  | cons b before =>
      rw [List.getLast?_cons_cons]
      exact hbefore

/-- Neither is a token in front that ends there. -/
theorem StandsWhole.append_chars (h : StandsWhole rest (start + t.chars.length) p) (ht : t.Cut)
    (hp : p.token.Cut) (hrest : ∀ d ∈ rest.head?, t.extendedBy d = false) :
    StandsWhole (t.chars ++ rest) start p := by
  obtain ⟨before, after, rfl, hstart, hbefore, hafter⟩ := h
  refine ⟨t.chars ++ before, after, (List.append_assoc ..).symm, ?_, ?_, hafter⟩
  · rw [hstart, List.length_append, Nat.add_assoc]
  · cases before with
    | nil =>
        intro d hd
        rw [List.append_nil] at hd
        obtain ⟨e, es, hes⟩ := List.exists_cons_of_ne_nil (Token.chars_ne_nil hp)
        have he : t.extendedBy e = false := hrest e (by rw [List.nil_append, hes]; rfl)
        refine Bool.eq_false_iff.mpr fun hextended => ?_
        have hmem : e ∈ p.token.chars := by
          rw [hes]
          exact .head es
        rw [Token.extendedBy_comm ht hp (List.mem_of_mem_getLast? hd) hmem hextended] at he
        cases he
    | cons b before =>
        rw [List.getLast?_append_cons]
        exact hbefore

/-- What a text is cut into divides it. -/
theorem CutsInto.divides (h : CutsInto start cs placed) : Divides start cs placed := by
  induction h with
  | finish start =>
      exact ⟨List.forall_mem_nil _, .nil, .nil, List.forall_mem_nil _, fun i c hc => by cases hc⟩
  | @blank start c cs placed hc _ ih =>
      refine ⟨ih.cut, ih.increasing, ih.apart, fun p hp => (ih.whole p hp).cons_blank hc, ?_⟩
      intro i d hd houtside
      cases i with
      | zero =>
          cases hd
          exact hc
      | succ i =>
          refine ih.blank i d hd fun p hp hinside => houtside p hp ?_
          omega
  | @token start t rest placed ht hrest _ ih =>
      have hlength : 0 < t.chars.length := List.length_pos_iff.mpr (Token.chars_ne_nil ht)
      refine ⟨List.forall_mem_cons.mpr ⟨ht, ih.cut⟩,
        List.pairwise_cons.mpr ⟨fun q hq => ?_, ih.increasing⟩,
        List.pairwise_cons.mpr ⟨fun q hq => (ih.whole q hq).le, ih.apart⟩,
        List.forall_mem_cons.mpr ⟨⟨[], rest, rfl, rfl, nofun, hrest⟩, fun q hq => ?_⟩, ?_⟩
      · have hle := (ih.whole q hq).le
        dsimp only
        omega
      · exact (ih.whole q hq).append_chars ht (ih.cut q hq) hrest
      · intro i d hd houtside
        have hnot := houtside ⟨t, start⟩ (.head _)
        dsimp only at hnot
        rw [List.getElem?_append_right (by omega)] at hd
        refine ih.blank (i - t.chars.length) d hd fun p hp hinside => houtside p (.tail _ hp) ?_
        omega

/-- Behind a token in front, the others divide what is left. -/
theorem Divides.of_token (h : Divides start (t.chars ++ rest) (⟨t, start⟩ :: placed)) :
    Divides (start + t.chars.length) rest placed := by
  obtain ⟨hcut, hincreasing, hapart, hwhole, hblank⟩ := h
  obtain ⟨hfirst, hapart⟩ := List.pairwise_cons.mp hapart
  refine ⟨(List.forall_mem_cons.mp hcut).2, (List.pairwise_cons.mp hincreasing).2, hapart,
    fun p hp => ?_, fun i c hc houtside => ?_⟩
  · obtain ⟨before, after, hchars, hstart, hbefore, hafter⟩ := hwhole p (.tail _ hp)
    have hle : start + t.chars.length ≤ p.start := hfirst p hp
    obtain ⟨between, rfl⟩ : t.chars <+: before := by
      apply List.prefix_of_prefix_length_le (List.prefix_append t.chars rest)
      · rw [hchars]
        exact List.prefix_append _ _
      · omega
    rw [List.append_assoc, List.append_cancel_left_eq] at hchars
    rw [List.length_append] at hstart
    refine ⟨between, after, hchars, by omega, fun c hc => hbefore c ?_, hafter⟩
    rw [Option.mem_def] at hc ⊢
    rw [List.getLast?_append, hc]
    rfl
  · refine hblank (t.chars.length + i) c ?_ (List.forall_mem_cons.mpr ⟨?_, fun p hp => ?_⟩)
    · rw [List.getElem?_append_right (Nat.le_add_right _ _), Nat.add_sub_cancel_left]
      exact hc
    · dsimp only
      omega
    · rw [← Nat.add_assoc]
      exact houtside p hp

/-- Where no token begins there is white space, behind which the tokens divide what is left. -/
theorem Divides.of_cons (h : Divides start (c :: rest) placed)
    (hstart : ∀ p ∈ placed, p.start ≠ start) :
    Text.isBlank c = true ∧ Divides (start + 1) rest placed := by
  have hlt : ∀ p ∈ placed, start < p.start := fun p hp =>
    Nat.lt_of_le_of_ne (h.whole p hp).le (hstart p hp).symm
  refine ⟨h.blank 0 c rfl fun p hp hinside => ?_, h.cut, h.increasing, h.apart, fun p hp => ?_,
    fun i d hd houtside => ?_⟩
  · have := hlt p hp
    omega
  · obtain ⟨before, after, hchars, hplace, hbefore, hafter⟩ := h.whole p hp
    cases before with
    | nil => exact absurd hplace (hstart p hp)
    | cons b before =>
        rw [List.length_cons] at hplace
        refine ⟨before, after, (List.cons.inj hchars).2, by omega, fun d hd => hbefore d ?_, hafter⟩
        rw [Option.mem_def] at hd ⊢
        rw [List.getLast?_cons, hd]
        rfl
  · refine h.blank (i + 1) d hd fun p hp hinside => houtside p hp ?_
    omega

/-- There is one way to divide a text. -/
theorem Divides.cutsInto (h : Divides start cs placed) : CutsInto start cs placed := by
  induction hn : cs.length using Nat.strongRecOn generalizing start cs placed with
  | ind n ih =>
      subst hn
      by_cases hfirst : ∀ p ∈ placed, p.start ≠ start
      · cases cs with
        | nil =>
            have hplaced : placed = [] := by
              apply List.eq_nil_iff_forall_not_mem.mpr
              intro p hp
              obtain ⟨before, after, hchars, -⟩ := h.whole p hp
              have hnil := List.append_eq_nil_iff.mp (List.append_eq_nil_iff.mp hchars.symm).2
              exact Token.chars_ne_nil (h.cut p hp) hnil.1
            rw [hplaced]
            exact .finish start
        | cons c rest =>
            obtain ⟨hblank, hrest⟩ := h.of_cons hfirst
            exact .blank hblank (ih rest.length (Nat.lt_succ_self _) hrest rfl)
      · push Not at hfirst
        obtain ⟨p, hp, hstart⟩ := hfirst
        obtain ⟨q, more, rfl⟩ := List.exists_cons_of_ne_nil (List.ne_nil_of_mem hp)
        -- The tokens are in order, so the one that begins here is the first of them.
        obtain rfl : p = q := by
          refine (List.mem_cons.mp hp).resolve_right fun hmore => ?_
          have hlt := (List.pairwise_cons.mp h.increasing).1 p hmore
          have hle := (h.whole q (.head _)).le
          omega
        obtain ⟨t, place⟩ := p
        dsimp only at hstart
        subst hstart
        obtain ⟨before, after, rfl, hlength, -, hafter⟩ := h.whole _ hp
        obtain rfl : before = [] := List.eq_nil_of_length_eq_zero (by dsimp only at hlength; omega)
        have ht : t.Cut := h.cut _ hp
        have hpos : 0 < t.chars.length := List.length_pos_iff.mpr (Token.chars_ne_nil ht)
        refine .token ht hafter (ih after.length ?_ h.of_token rfl)
        dsimp only
        rw [List.nil_append, List.length_append]
        omega

/-- A text is cut into the tokens that divide it. -/
theorem cutFrom_eq_ok_iff_divides : cutFrom start cs = .ok placed ↔ Divides start cs placed :=
  ⟨fun h => (cutsInto_of_cutFrom h).divides, fun h => h.cutsInto.cutFrom_eq⟩

/-! ## White space -/

/-- Between the characters in front and those behind, a run of letters or of digits goes on. -/
def InRun (front back : List Char) : Prop :=
  ∃ c ∈ front.getLast?, ∃ d ∈ back.head?,
    isLetter c = true ∧ isLetter d = true ∨ isNumeralDigit c = true ∧ isNumeralDigit d = true

/-- The second text has one white space more, and not within a run. -/
inductive Spaced : List Char → List Char → Prop where
  | insert {front back : List Char} {c : Char} : Text.isBlank c = true → ¬ InRun front back →
      Spaced (front ++ back) (front ++ c :: back)

/-- The texts differ in white space only, which neither joins nor splits a run. -/
abbrev Respaced : List Char → List Char → Prop := Relation.EqvGen Spaced

theorem not_inRun_nil (back : List Char) : ¬ InRun [] back := by
  rintro ⟨c, ⟨⟩, _⟩

theorem InRun.append_left {front back : List Char} (h : InRun front back) (more : List Char) :
    InRun (more ++ front) back := by
  obtain ⟨c, hc, hinrun⟩ := h
  exact ⟨c, List.mem_getLast?_append_of_mem_getLast? hc, hinrun⟩

theorem InRun.append_right {front back : List Char} (h : InRun front back) (more : List Char) :
    InRun front (back ++ more) := by
  obtain ⟨c, hc, d, hd, hkind⟩ := h
  refine ⟨c, hc, d, ?_, hkind⟩
  rw [Option.mem_def] at hd ⊢
  rw [List.head?_append, hd]
  rfl

/-- A run goes on within a token. -/
theorem Token.Cut.inRun {front back : List Char} (ht : t.Cut)
    (h : t.chars = front ++ back) (hfront : front ≠ []) (hback : back ≠ []) :
    InRun front back := by
  obtain ⟨c, hc⟩ := List.getLast?_isSome.mpr hfront |> Option.isSome_iff_exists.mp
  obtain ⟨d, ds, rfl⟩ := List.exists_cons_of_ne_nil hback
  have hcmem : c ∈ t.chars := by
    rw [h]
    exact List.mem_append_left _ (List.mem_of_getLast? hc)
  have hdmem : d ∈ t.chars := by
    rw [h]
    exact List.mem_append_right _ (.head ds)
  refine ⟨c, hc, d, rfl, ?_⟩
  cases t with
  | word letters => exact .inl ⟨ht.2 c hcmem, ht.2 d hdmem⟩
  | numeral digits => exact .inr ⟨ht.2 c hcmem, ht.2 d hdmem⟩
  | lambda _ | dot | leftParen | rightParen =>
      have hlength := congrArg List.length h
      have hpos := List.length_pos_iff.mpr hfront
      rw [List.length_append, Token.chars, List.length_singleton, List.length_cons] at hlength
      omega

/-- Where a token ends, no run goes on. -/
theorem Token.Cut.not_inRun (ht : t.Cut) (hrest : ∀ d ∈ rest.head?, t.extendedBy d = false) :
    ¬ InRun t.chars rest := by
  rintro ⟨c, hc, d, hd, ⟨hcl, hdl⟩ | ⟨hcl, hdl⟩⟩
  all_goals
    have hmem : c ∈ t.chars := List.mem_of_getLast? hc
    have hnot := hrest d hd
  · rw [Token.extendedBy_eq_isLetter ht hmem hcl, hdl] at hnot
    cases hnot
  · rw [Token.extendedBy_eq_isNumeralDigit ht hmem hcl, hdl] at hnot
    cases hnot

/-- Where a text starts has no say in its tokens. -/
theorem CutsInto.exists_at (h : CutsInto start cs placed) (start' : Nat) :
    ∃ placed', CutsInto start' cs placed' ∧ placed'.map (·.token) = placed.map (·.token) := by
  induction h generalizing start' with
  | finish start => exact ⟨[], .finish start', rfl⟩
  | blank hc _ ih =>
      obtain ⟨placed', hcuts, htokens⟩ := ih (start' + 1)
      exact ⟨placed', .blank hc hcuts, htokens⟩
  | @token start t rest placed ht hrest _ ih =>
      obtain ⟨placed', hcuts, htokens⟩ := ih (start' + t.chars.length)
      exact ⟨⟨t, start'⟩ :: placed', .token ht hrest hcuts, congrArg (t :: ·) htokens⟩

/-- White space outside of runs leaves the tokens alone. -/
theorem CutsInto.exists_insert {front back : List Char} (h : CutsInto start cs placed)
    (hcs : cs = front ++ back) (hc : Text.isBlank c = true) (hrun : ¬ InRun front back)
    (start' : Nat) :
    ∃ placed', CutsInto start' (front ++ c :: back) placed' ∧
      placed'.map (·.token) = placed.map (·.token) := by
  induction h generalizing front start' with
  | finish start =>
      obtain ⟨rfl, rfl⟩ := List.append_eq_nil_iff.mp hcs.symm
      exact ⟨[], .blank hc (.finish _), rfl⟩
  | @blank start b cs placed hb hcuts ih =>
      cases front with
      | nil =>
          subst hcs
          obtain ⟨placed', hcuts', htokens⟩ := (CutsInto.blank hb hcuts).exists_at (start' + 1)
          exact ⟨placed', .blank hc hcuts', htokens⟩
      | cons a front =>
          obtain ⟨rfl, rfl⟩ := List.cons.inj hcs
          obtain ⟨placed', hcuts', htokens⟩ :=
            ih rfl (fun hinrun => hrun (hinrun.append_left [b])) (start' + 1)
          exact ⟨placed', .blank hb hcuts', htokens⟩
  | @token start t rest placed ht hrest hcuts ih =>
      rcases eq_or_ne front [] with rfl | hfront
      · subst hcs
        obtain ⟨placed', hcuts', htokens⟩ := (CutsInto.token ht hrest hcuts).exists_at (start' + 1)
        exact ⟨placed', .blank hc hcuts', htokens⟩
      · -- The white space is behind the token, since a run goes on wherever it would be cut.
        obtain ⟨between, rfl, rfl⟩ : ∃ between, front = t.chars ++ between ∧
            rest = between ++ back := by
          rcases List.append_eq_append_iff.mp hcs with hbehind | ⟨between, hchars, rfl⟩
          · exact hbehind
          · rcases eq_or_ne between [] with rfl | hbetween
            · exact ⟨[], by rw [hchars, List.append_nil, List.append_nil], rfl⟩
            · exact absurd ((ht.inRun hchars hfront hbetween).append_right rest) hrun
        obtain ⟨placed', hcuts', htokens⟩ :=
          ih rfl (fun hinrun => hrun (hinrun.append_left t.chars)) (start' + t.chars.length)
        have hends : ∀ d ∈ (between ++ c :: back).head?, t.extendedBy d = false := by
          cases between with
          | nil =>
              rintro d ⟨⟩
              exact t.extendedBy_of_isBlank hc
          | cons b between => exact hrest
        refine ⟨⟨t, start'⟩ :: placed', ?_, congrArg (t :: ·) htokens⟩
        rw [List.append_assoc]
        exact .token ht hends hcuts'

/-- The same characters, but for white space. -/
theorem Spaced.belongs_iff {cs cs' : List Char} (h : Spaced cs cs') :
    (∀ d ∈ cs, Belongs d) ↔ ∀ d ∈ cs', Belongs d := by
  obtain ⟨hc, -⟩ := h
  simp only [List.forall_mem_append, List.forall_mem_cons]
  exact and_congr_right fun _ => ⟨fun hback => ⟨.inr (.inr (.inr hc)), hback⟩, And.right⟩

/-- The text is cut into these tokens. -/
def HasTokens (cs : List Char) (ts : List Token) : Prop :=
  ∃ placed, cutFrom 0 cs = .ok placed ∧ placed.map (·.token) = ts

theorem HasTokens.unique {ts ts' : List Token} (h : HasTokens cs ts) (h' : HasTokens cs ts') :
    ts = ts' := by
  obtain ⟨placed, hcut, rfl⟩ := h
  obtain ⟨placed', hcut', rfl⟩ := h'
  rw [hcut] at hcut'
  rw [Except.ok.inj hcut']

/-- A text has tokens exactly if all its characters belong to the surface syntax. -/
theorem exists_hasTokens_iff : (∃ ts, HasTokens cs ts) ↔ ∀ d ∈ cs, Belongs d := by
  have hscans := scans_cutFrom 0 cs
  cases hcut : cutFrom 0 cs with
  | ok placed =>
      rw [hcut] at hscans
      exact iff_of_true ⟨_, placed, hcut, rfl⟩ hscans
  | error e =>
      refine iff_of_false ?_ fun hall => ?_
      · rintro ⟨ts, placed, hplaced, -⟩
        rw [hcut] at hplaced
        cases hplaced
      · obtain ⟨d, hd, hnot⟩ := hscans.exists_error_iff.mp ⟨e, hcut⟩
        exact hnot (hall d hd)

theorem Spaced.hasTokens {cs cs' : List Char} {ts : List Token} (h : Spaced cs cs')
    (hts : HasTokens cs ts) : HasTokens cs' ts := by
  obtain ⟨hc, hrun⟩ := h
  obtain ⟨placed, hcut, rfl⟩ := hts
  obtain ⟨placed', hcuts, htokens⟩ :=
    (cutsInto_of_cutFrom hcut).exists_insert rfl hc hrun 0
  exact ⟨placed', hcuts.cutFrom_eq, htokens⟩

/-- White space that neither joins nor splits a run leaves the tokens alone. -/
theorem Respaced.hasTokens_iff {cs cs' : List Char} (h : Respaced cs cs') (ts : List Token) :
    HasTokens cs ts ↔ HasTokens cs' ts := by
  induction h with
  | rel cs cs' h =>
      refine ⟨h.hasTokens, fun hts => ?_⟩
      obtain ⟨ts', hts'⟩ :=
        exists_hasTokens_iff.mpr (h.belongs_iff.mpr (exists_hasTokens_iff.mp ⟨ts, hts⟩))
      rw [hts.unique (h.hasTokens hts')]
      exact hts'
  | refl cs => rfl
  | symm _ _ _ ih => exact ih.symm
  | trans _ _ _ _ _ ih ih' => exact ih.trans ih'

/-- Behind a space, white space comes and goes as it does in front. -/
theorem Respaced.behind_space {cs cs' : List Char} (h : Respaced cs cs') (front : List Char) :
    Respaced (front ++ ' ' :: cs) (front ++ ' ' :: cs') := by
  induction h with
  | rel cs cs' h =>
      obtain @⟨before, back, c, hc, hrun⟩ := h
      have hsplit : ∀ cs, front ++ ' ' :: (before ++ cs) = (front ++ ' ' :: before) ++ cs :=
        fun cs => by rw [List.append_assoc, List.cons_append]
      rw [hsplit, hsplit]
      refine .rel _ _ (.insert hc ?_)
      rintro ⟨b, hb, hinrun⟩
      rw [List.getLast?_append_cons] at hb
      cases before with
      | nil =>
          cases hb
          obtain ⟨d, -, ⟨hletter, -⟩ | ⟨hdigit, -⟩⟩ := hinrun
          · cases hletter
          · cases hdigit
      | cons a before =>
          rw [List.getLast?_cons_cons] at hb
          exact hrun ⟨b, hb, hinrun⟩
  | refl cs => exact .refl _
  | symm _ _ _ ih => exact ih.symm
  | trans _ _ _ _ _ ih ih' => exact ih.trans _ _ _ ih'

/-- A text differs in such white space from its tokens written apart. -/
theorem CutsInto.respaced (h : CutsInto start cs placed) :
    Respaced cs (apart (placed.map (·.token))) := by
  induction h with
  | finish start => exact .refl _
  | @blank start c cs placed hc _ ih =>
      exact .trans _ _ _ (.symm _ _ (.rel _ _ (.insert hc (not_inRun_nil cs)))) ih
  | @token start t rest placed ht hrest _ ih =>
      have hends : ∀ d ∈ (apart (placed.map (·.token))).head?, t.extendedBy d = false := by
        intro d hd
        rw [head?_apart _ d hd]
        exact t.extendedBy_of_isBlank rfl
      have hopen : Respaced (t.chars ++ rest) (t.chars ++ ' ' :: rest) :=
        .rel _ _ (.insert rfl (ht.not_inRun hrest))
      have hclose : Respaced (t.chars ++ apart (placed.map (·.token)))
          (t.chars ++ ' ' :: apart (placed.map (·.token))) :=
        .rel _ _ (.insert rfl (ht.not_inRun hends))
      have hfront : Respaced (t.chars ++ apart (placed.map (·.token)))
          (' ' :: (t.chars ++ apart (placed.map (·.token)))) :=
        .rel _ _ (.insert rfl (not_inRun_nil _))
      have hspace : Respaced (t.chars ++ ' ' :: rest)
          (t.chars ++ ' ' :: apart (placed.map (·.token))) := ih.behind_space t.chars
      exact hopen.trans _ _ _ (hspace.trans _ _ _ (hclose.symm.trans _ _ _ hfront))

/-- Texts have the same tokens exactly if they differ in such white space only. -/
theorem map_token_eq_iff_respaced {cs' : List Char} {placed' : List (Text.Placed Token)}
    (h : cutFrom 0 cs = .ok placed) (h' : cutFrom 0 cs' = .ok placed') :
    placed.map (·.token) = placed'.map (·.token) ↔ Respaced cs cs' := by
  constructor
  · intro htokens
    have hapart := (cutsInto_of_cutFrom h).respaced
    rw [htokens] at hapart
    exact hapart.trans _ _ _ (cutsInto_of_cutFrom h').respaced.symm
  · intro hrespaced
    exact ((hrespaced.hasTokens_iff _).mp ⟨placed, h, rfl⟩).unique ⟨placed', h', rfl⟩

end

/-- **A text is its tokens and white space.**  A text of the surface syntax is divided into
tokens, in one way; its tokens stand where they say, one after the other, all else is white
space, and no word or numeral could be longer.  Any other text is refused at the first
character that does not belong.  Two texts have the same tokens exactly if they differ in
white space only that neither joins nor splits a run of letters or of digits. -/
theorem lex_divides (s : String) :
    (∀ placed, lex s = .ok placed ↔ Divides 0 s.toList placed) ∧
      ((∀ c ∈ s.toList, Belongs c) → ∃ placed, lex s = .ok placed) ∧
      ((∃ c ∈ s.toList, ¬ Belongs c) → ∃ e, lex s = .error e ∧
        Text.FirstStray Belongs s.toList e.position e.character ∧
        e.diagnostic.topic = .alphabet ∧ e.diagnostic.subject = s ∧
        e.diagnostic.start = e.position ∧ e.diagnostic.stop = e.position + 1 ∧
        e.diagnostic.checked = .ok e.diagnostic) ∧
      ∀ s' placed placed', lex s = .ok placed → lex s' = .ok placed' →
        (placed.map (·.token) = placed'.map (·.token) ↔ Respaced s.toList s'.toList) := by
  have hscans := scans_cutFrom 0 s.toList
  refine ⟨fun placed => mapError_eq_ok_iff.trans cutFrom_eq_ok_iff_divides, fun hall => ?_,
    fun hstray => ?_, fun s' placed placed' h h' =>
      map_token_eq_iff_respaced (mapError_eq_ok_iff.mp h) (mapError_eq_ok_iff.mp h')⟩
  · obtain ⟨ts, placed, hcut, -⟩ := exists_hasTokens_iff.mpr hall
    exact ⟨placed, mapError_eq_ok_iff.mpr hcut⟩
  · obtain ⟨e, he⟩ := hscans.exists_error_iff.mpr hstray
    obtain ⟨htopic, hsubject, hstart, hchecked⟩ := StrayCharacter.diagnostic_spec ⟨s, e.1, e.2⟩
    exact ⟨⟨s, e.1, e.2⟩, mapError_eq_error_iff.mpr ⟨e, he, rfl⟩, hscans.firstStray he, htopic,
      hsubject, hstart, rfl, hchecked⟩

/-- White space between a letter and a digit is neither here nor there. -/
example : (lex "f12 x").map (·.map (·.token)) = (lex "f 12  x").map (·.map (·.token)) := by
  cbv

end BinaryLambda.Surface
