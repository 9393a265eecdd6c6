import BinaryLambda.Token
import Mathlib.Tactic.Common

set_option autoImplicit false

/-!
# Diagnostics: their messages

The templates of this library have no braces but those of empty slots.  Such a template is
filled by as many snippets as it has slots, whatever is in them (`exists_fill_eq_ok`), so
its diagnostics have a message (`checked_eq_ok`).
-/

namespace BinaryLambda

namespace Text.Template

/-- The number of slots of a template whose braces are all those of empty slots. -/
def emptySlots? : List Char → Option Nat
  | [] => some 0
  | '\x7b' :: '\x7d' :: cs => (emptySlots? cs).map (· + 1)
  | c :: cs => if isBrace c then none else emptySlots? cs

/-- The numbering after `used` empty slots. -/
def Numbering.afterEmpty : Nat → Numbering
  | 0 => .undecided
  | next + 1 => .empty (next + 1)

theorem fillFrom_cons {c : Char} (hc : isBrace c = false) (fillings : List String)
    (numbering : Numbering) (done cs : List Char) :
    fillFrom fillings numbering done (c :: cs) = fillFrom fillings numbering (c :: done) cs := by
  have hopen : c ≠ '\x7b' := by
    rintro rfl
    cases hc
  have hclose : c ≠ '\x7d' := by
    rintro rfl
    cases hc
  rw [fillFrom] <;> simp [hopen, hclose]

theorem fillFrom_slot {fillings : List String} {used : Nat} (h : used < fillings.length)
    (done cs : List Char) :
    fillFrom fillings (.afterEmpty used) done ('\x7b' :: '\x7d' :: cs) =
      fillFrom fillings (.afterEmpty (used + 1)) (fillings[used].toList.reverse ++ done) cs := by
  have hslot : slot [] fillings (.afterEmpty used) =
      .ok (fillings[used], .afterEmpty (used + 1)) := by
    cases used <;> simp [slot, Numbering.afterEmpty, filling, h, Except.map]
  have htake : ('\x7d' :: cs).takeWhile (!isBrace ·) = [] := rfl
  have hdrop : ('\x7d' :: cs).dropWhile (!isBrace ·) = '\x7d' :: cs := rfl
  rw [fillFrom, htake, hslot]
  · split
    · rename_i hnil
      rw [hdrop] at hnil
      cases hnil
    · rename_i hbrace
      rw [hdrop] at hbrace
      cases hbrace
    · rename_i hcons
      rw [hdrop] at hcons
      cases hcons
      rfl
  · simp
  · simp

/-- After some of the fillings, the rest of the template takes the others. -/
theorem exists_fillFrom_eq_ok {fillings : List String} {cs : List Char} {slots used : Nat}
    (hslots : emptySlots? cs = some slots) (hlength : used + slots ≤ fillings.length)
    (done : List Char) :
    ∃ s, fillFrom fillings (.afterEmpty used) done cs = .ok s := by
  fun_induction emptySlots? cs generalizing slots used done with
  | case1 => exact ⟨_, by rw [fillFrom]⟩
  | case2 cs ih =>
      obtain ⟨more, hmore, rfl⟩ := Option.map_eq_some_iff.mp hslots
      rw [fillFrom_slot (by omega)]
      exact ih hmore (by omega) _
  | case3 => cases hslots
  | case4 c cs _ hc ih =>
      rw [fillFrom_cons (by simpa using hc)]
      exact ih hslots hlength _

/-- A template is filled by enough fillings, whatever is in them. -/
theorem exists_fill_eq_ok {template : String} {fillings : List String} {slots : Nat}
    (hslots : emptySlots? template.toList = some slots) (hlength : slots ≤ fillings.length) :
    ∃ s, fill template fillings = .ok s := by
  have hunused : 0 + slots ≤ fillings.length := by omega
  exact exists_fillFrom_eq_ok hslots hunused []

end Text.Template

namespace Diagnostic

/-- A diagnostic whose snippets fill its template passes its check as it is. -/
theorem checked_eq_ok {d : Diagnostic}
    (hslots : (Text.Template.emptySlots? d.template.toList).any (· ≤ d.snippets.length) = true)
    (hstop : d.stop ≠ -1) : d.checked = .ok d := by
  obtain ⟨slots, hslots, hlength⟩ := (Option.any_eq_true ..).mp hslots
  obtain ⟨s, hs⟩ := Text.Template.exists_fill_eq_ok hslots (of_decide_eq_true hlength)
  rw [checked, hs]
  exact congrArg Except.ok (if_neg hstop)

/-- A span of a text never ends at the stop that stands for the end of the text. -/
theorem checked_marking {topic : Topic} {template : String} {snippets : List String}
    (start stop : Nat)
    (hslots : (Text.Template.emptySlots? template.toList).any (· ≤ snippets.length) = true) :
    (marking topic template snippets start stop).checked =
      .ok (marking topic template snippets start stop) := by
  apply checked_eq_ok hslots
  change (stop : Int) ≠ -1
  omega

theorem checked_plain {topic : Topic} {template : String} {snippets : List String}
    (hslots : (Text.Template.emptySlots? template.toList).any (· ≤ snippets.length) = true) :
    (plain topic template snippets).checked = .ok (plain topic template snippets) := by
  apply checked_eq_ok hslots
  change ((snippets.headD "").length : Int) ≠ -1
  omega

end Diagnostic

/-- The diagnostic of a stray character marks it in its text, and it has a message. -/
theorem StrayCharacter.diagnostic_spec (e : StrayCharacter) :
    e.diagnostic.topic = .alphabet ∧ e.diagnostic.subject = e.text ∧
      e.diagnostic.start = e.position ∧ e.diagnostic.checked = .ok e.diagnostic :=
  ⟨rfl, rfl, rfl, Diagnostic.checked_marking _ _ rfl⟩

end BinaryLambda
