import BinaryLambda.Draft.Operations
import BinaryLambda.Proofs.Outcome

set_option autoImplicit false

/-!
# Drafts: walks over terms

A walk over a draft that is a term finds what the operation on terms finds, and it fails where
that fails (`Walk.substitute_ofTerm`, `Walk.step_ofTerm`, `Walk.indexed_none_ofTerm`).  So every
operation on drafts is one walk, whether the draft is a term or not, and a run from a term is
the run of the calculus of drafts (`run_eq`).
-/

namespace BinaryLambda

theorem IndexTerm.charsOnto_append (t : IndexTerm) (rest tail : List Char) :
    t.charsOnto rest ++ tail = t.charsOnto (rest ++ tail) := by
  induction t generalizing rest with
  | bound n => rw [charsOnto, charsOnto, List.append_assoc]
  | lam b ih => rw [charsOnto, List.cons_append, List.cons_append, ih, charsOnto]
  | app f a ihf iha =>
      rw [charsOnto, List.cons_append, ihf, List.cons_append, iha, List.cons_append, charsOnto]

namespace Draft

/-! ## Terms among drafts -/

/-- An operation that hands terms on to their own operation is a walk, if the walk finds on
terms what that finds. -/
theorem eq_walk {β : Type} {operation : Term → β} (walk : Draft → β)
    (h : ∀ t, walk (ofTerm t) = operation t) (d : Draft) :
    (match d.term? with
      | some t => operation t
      | none => walk d) = walk d := by
  cases hd : d.term? with
  | none => rfl
  | some t => rw [eq_ofTerm_of_term? hd, h]

namespace Walk

/-! ## Names -/

theorem freeNames_ofTerm (t : Term) : freeNames (ofTerm t) = .ok t.freeNames := by
  induction t with
  | var y => rfl
  | lam p b ih =>
      rw [ofTerm, freeNames, ih, Term.freeNames]
      refine congrArg Except.ok (List.filter_congr fun x _ => ?_)
      by_cases h : x = p <;> simp [h]
  | app f a ihf iha =>
      rw [ofTerm, freeNames, ihf, iha]
      rfl

theorem occursFree_ofTerm (x : String) (t : Term) :
    occursFree (some x) (ofTerm t) = .ok (t.occursFree x) := by
  induction t with
  | var y => rfl
  | lam p b ih =>
      rw [ofTerm, occursFree, ih, Term.occursFree_lam]
      by_cases h : p = x <;> simp [h]
  | app f a ihf iha =>
      rw [ofTerm, occursFree, ihf, iha, Term.occursFree_app]
      cases f.occursFree x <;> rfl

theorem bindsFree_ofTerm (binder x : String) (t : Term) :
    bindsFree binder x (ofTerm t) = .ok (t.bindsFree binder x) := by
  induction t with
  | var y => rfl
  | lam p b ih =>
      rw [ofTerm, bindsFree, ih, occursFree_ofTerm, Term.bindsFree]
      simp only [Option.some.injEq]
      split_ifs <;> rfl
  | app f a ihf iha =>
      rw [ofTerm, bindsFree, ihf, iha, Term.bindsFree]
      cases f.bindsFree binder x <;> rfl

theorem rename_ofTerm (old new : String) (t : Term) :
    rename old new (ofTerm t) = .ok (ofTerm (t.rename old new)) := by
  induction t with
  | var y => rfl
  | lam p b ih =>
      rw [ofTerm, rename, ih, Term.rename]
      simp only [Option.some.injEq]
      split_ifs <;> rfl
  | app f a ihf iha =>
      rw [ofTerm, rename, ihf, iha]
      rfl

/-! ## Texts -/

theorem tokensOnto_ofTerm (t : Term) (rest : List Token) :
    tokensOnto (ofTerm t) rest = .ok (t.tokensOnto rest) := by
  induction t generalizing rest with
  | var y => rfl
  | lam p b ih =>
      rw [ofTerm, tokensOnto, ih]
      rfl
  | app f a ihf iha =>
      have hsides : f.tokensOnto [] ++ a.tokensOnto (.rightParen :: rest) =
          f.tokensOnto (a.tokensOnto (.rightParen :: rest)) := Term.tokensOnto_append f [] _
      rw [ofTerm, tokensOnto, ihf, iha, Term.tokensOnto, ← hsides]
      rfl

theorem text_ofTerm (t : Term) : text (ofTerm t) = .ok t.text := by
  rw [text, tokensOnto_ofTerm]
  rfl

/-! ## Fresh names -/

/-- The search for a name stops at the first that passes. -/
theorem firstFresh_ofTerm (name : String) (body : Term) (avoid names : List String) :
    firstFresh name (ofTerm body) avoid names =
      .ok (names.find? (Term.canRename name body avoid)) := by
  induction names with
  | nil => rfl
  | cons c names ih =>
      rw [firstFresh, ih, occursFree_ofTerm, bindsFree_ofTerm, List.find?_cons, Term.canRename]
      by_cases hname : c = name
      · rw [if_pos (.inl hname), bne_eq_false_iff_eq.mpr hname]
        rfl
      cases havoid : avoid.contains c with
      | true =>
          rw [if_pos (.inr rfl), Bool.not_true, Bool.and_false]
          rfl
      | false =>
          rw [if_neg (not_or.mpr ⟨hname, Bool.false_ne_true⟩), bne_iff_ne.mpr hname]
          cases body.occursFree c with
          | true => rfl
          | false => cases body.bindsFree c name <;> rfl

theorem freshName_ofTerm (name : String) (body : Term) (avoid : List String) :
    freshName name (ofTerm body) avoid =
      (Term.freshName name body avoid).mapError .freshName := by
  rw [freshName, firstFresh_ofTerm, text_ofTerm, term?_ofTerm, Term.freshName]
  cases (Term.candidates name).find? (Term.canRename name body avoid) <;> rfl

section

variable {p q : String} {body : Term} {avoid : List String}

theorem alphaConvert_of_ok (h : Term.freshName p body avoid = .ok q) :
    ∃ hsize, alphaConvert (some p) (ofTerm body) avoid =
      .ok (q, ⟨ofTerm (body.rename p q), hsize⟩) := by
  have hfresh := freshName_ofTerm p body avoid
  rw [h] at hfresh
  have hrename := rename_ofTerm p q body
  refine ⟨size_rename hrename, ?_⟩
  rw [alphaConvert, hfresh]
  dsimp only [Except.mapError]
  split
  · rename_i e he
    rw [hrename] at he
    cases he
  · rename_i b hb
    rw [hrename] at hb
    cases hb
    rfl

theorem alphaConvert_of_error {e : Term.NoFreshName}
    (h : Term.freshName p body avoid = .error e) :
    alphaConvert (some p) (ofTerm body) avoid = .error (.freshName e) := by
  have hfresh := freshName_ofTerm p body avoid
  rw [h] at hfresh
  rw [alphaConvert, hfresh]
  rfl

end

/-! ## Reduction -/

theorem ofFresh_map_lam (p : String) (r : Except Term.NoFreshName Term) :
    ofFresh (r.map (.lam p)) = (ofFresh r).map (.lam (some p)) := by
  cases r <;> rfl

theorem ofFresh_map_app (f : Term) (r : Except Term.NoFreshName Term) :
    ofFresh (r.map (.app f)) = (ofFresh r).map (.app (ofTerm f)) := by
  cases r <;> rfl

/-- Beneath a binder that would capture, the walk goes on in what the renaming gives. -/
theorem substitute_threatened {value b : Term} {p x : String} (hx : p ≠ x)
    (hp : value.occursFree p = true) (hb : b.occursFree x = true) :
    substitute (ofTerm value) (some x) (ofTerm (.lam p b)) =
      (alphaConvert (some p) (ofTerm b) (x :: value.freeNames)).bind fun renamed =>
        (substitute (ofTerm value) (some x) renamed.2.1).map (.lam (some renamed.1)) := by
  rw [ofTerm, substitute, if_neg (hx ∘ Option.some.inj), occursFree_ofTerm, hp]
  dsimp only
  rw [occursFree_ofTerm, hb, freeNames_ofTerm]
  dsimp only
  rw [Option.toList_some, List.singleton_append]
  cases alphaConvert (some p) (ofTerm b) (x :: value.freeNames) <;> rfl

/-- A walk that substitutes in a term takes the same branch at every node: it fails for the same
want of a name, and a body that was renamed is a term again. -/
theorem substitute_ofTerm (value : Term) (x : String) (t : Term) :
    substitute (ofTerm value) (some x) (ofTerm t) = ofFresh (Term.substitute value x t) := by
  fun_induction Term.substitute value x t with
  | case1 y =>
      rw [ofTerm, substitute]
      by_cases hy : y = x
      · rw [if_pos hy, if_pos (congrArg some hy)]
        rfl
      · rw [if_neg hy, if_neg (hy ∘ Option.some.inj)]
        rfl
  | case2 b =>
      rw [ofTerm, substitute, if_pos rfl]
      rfl
  | case3 p b hx hp ih =>
      rw [ofTerm, substitute, if_neg (hx ∘ Option.some.inj), occursFree_ofTerm, hp,
        ofFresh_map_lam, ← ih]
  | case4 p b hx hp hb =>
      rw [Bool.not_eq_false] at hp
      rw [ofTerm, substitute, if_neg (hx ∘ Option.some.inj), occursFree_ofTerm, hp]
      dsimp only
      rw [occursFree_ofTerm, hb]
      rfl
  | case5 p b hx hp hb e he =>
      rw [Bool.not_eq_false] at hp hb
      rw [substitute_threatened hx hp hb, alphaConvert_of_error he]
      rfl
  | case6 p b hx hp hb q hq ih =>
      rw [Bool.not_eq_false] at hp hb
      obtain ⟨hsize, halpha⟩ := alphaConvert_of_ok hq
      rw [substitute_threatened hx hp hb, halpha, ofFresh_map_lam, ← ih]
      rfl
  | case7 f a e hf ih =>
      rw [hf] at ih
      rw [ofTerm, substitute, ih]
      rfl
  | case8 f a f' hf ihf iha =>
      rw [hf] at ihf
      rw [ofTerm, substitute, ihf, ofFresh_map_app, ← iha]
      rfl

section

variable {f : Term}

/-- The draft of a term that is no abstraction is none either. -/
theorem ofTerm_ne_lam (h : ∀ p b, f = .lam p b → False) (p : Option String) (b : Draft) :
    ofTerm f = .lam p b → False := by
  intro heq
  cases f with
  | lam q c => exact h q c rfl
  | var y => cases heq
  | app g c => cases heq

theorem hasRedex_app_ofTerm {a : Term} (h : ∀ p b, f = .lam p b → False)
    (hf : hasRedex (ofTerm f) = .ok f.hasRedex) (ha : hasRedex (ofTerm a) = .ok a.hasRedex) :
    hasRedex (ofTerm (f.app a)) = .ok (f.app a).hasRedex := by
  rw [ofTerm, hasRedex, hf, ha, Term.hasRedex]
  · cases f.hasRedex <;> rfl
  · exact h
  · exact ofTerm_ne_lam h

theorem step_app_ofTerm {a : Term} (h : ∀ p b, f = .lam p b → False)
    (hf : step (ofTerm f) = ofFresh f.step) (ha : step (ofTerm a) = ofFresh a.step) :
    step (ofTerm (f.app a)) = ofFresh (f.app a).step := by
  rw [ofTerm, step, hf, ha, Term.step]
  · cases f.step with
    | error e => rfl
    | ok f' => exact (ofFresh_map_app f' a.step).symm
  · exact h
  · exact ofTerm_ne_lam h

end

theorem hasRedex_ofTerm (t : Term) : hasRedex (ofTerm t) = .ok t.hasRedex := by
  induction t with
  | var y => rfl
  | lam p b ih =>
      rw [ofTerm, hasRedex, ih]
      rfl
  | app f a ihf iha =>
      -- whether it is a redex is told by the function
      cases f with
      | lam p b => rfl
      | var y => exact hasRedex_app_ofTerm (fun _ _ h => by cases h) ihf iha
      | app g b => exact hasRedex_app_ofTerm (fun _ _ h => by cases h) ihf iha

theorem step_ofTerm (t : Term) : step (ofTerm t) = ofFresh t.step := by
  induction t with
  | var y => rfl
  | lam p b ih => rw [ofTerm, step, ih, Term.step, ofFresh_map_lam]
  | app f a ihf iha =>
      cases f with
      | lam p b => exact substitute_ofTerm a p b
      | var y => exact step_app_ofTerm (fun _ _ h => by cases h) ihf iha
      | app g b => exact step_app_ofTerm (fun _ _ h => by cases h) ihf iha

/-! ## Indices -/

theorem indexed_none_ofTerm (context : List String) (t : Term) :
    indexed context none (ofTerm t) =
      (none, ((t.indexed context).map ofIndexTerm).mapError .unbound) := by
  induction t generalizing context with
  | var x =>
      rw [ofTerm, indexed, Term.indexed]
      cases context.idxOf? x <;> rfl
  | lam p b ih =>
      rw [ofTerm, indexed, ih, Term.indexed]
      cases b.indexed (p :: context) <;> rfl
  | app f a ihf iha =>
      rw [ofTerm, indexed, ihf, Term.indexed]
      cases f.indexed context with
      | error e => rfl
      | ok f' =>
          dsimp only [Except.map, Except.mapError]
          rw [iha]
          cases a.indexed context <;> rfl

theorem indexed_some_ofTerm (context names : List String) (t : Term) :
    indexed context (some names) (ofTerm t) =
      (some (t.registered context names).2, .ok (ofIndexTerm (t.registered context names).1)) := by
  induction t generalizing context names with
  | var x =>
      rw [ofTerm, indexed, Term.registered]
      cases context.idxOf? x <;> rfl
  | lam p b ih =>
      rw [ofTerm, indexed, ih]
      rfl
  | app f a ihf iha =>
      rw [ofTerm, indexed, ihf]
      dsimp only
      rw [iha]
      rfl

/-! ## Church numerals -/

theorem countApplications_ofTerm (f x : String) (t : Term) :
    countApplications (some f) (some x) (ofTerm t) = t.countApplications f x := by
  induction t with
  | var y =>
      rw [ofTerm, countApplications, Term.countApplications]
      simp only [Option.some.injEq]
  | lam p b ih => rfl
  | app g a ihg iha =>
      rw [ofTerm, countApplications, iha]
      cases g with
      | var y =>
          rw [ofTerm, isVariable, Term.countApplications]
          simp only [beq_iff_eq, Option.some.injEq]
      | lam p b => rfl
      | app h b => rfl

theorem churchValue?_ofTerm (t : Term) : churchValue? (ofTerm t) = t.churchValue? := by
  cases t with
  | var y => rfl
  | app f a => rfl
  | lam f t =>
      cases t with
      | var y => rfl
      | app g a => rfl
      | lam x b =>
          rw [ofTerm, ofTerm, churchValue?, countApplications_ofTerm, Term.churchValue?]
          simp only [Option.some.injEq]

/-! ## Writing index terms

An index term passes all checks of the walks that write it. -/

/-- The decimal digits of a natural number as an integer. -/
theorem toList_toString_natCast (n : Nat) : (toString (n : Int)).toList = Nat.toDigits 10 n := by
  change n.repr.toList = _
  rw [Nat.repr_eq_ofList_toDigits, String.toList_ofList]

section

open IndexTerm

variable {d : Draft} {t : IndexTerm}

theorem codeOnto_of_indexTerm? (h : d.indexTerm? = some t) (rest : List Bool) :
    codeOnto d (rest.map bitChar) = .ok ((t.codeOnto rest).map bitChar) := by
  fun_induction indexTerm? d generalizing t rest with
  | case1 n =>
      cases h
      -- the node holds an index from 1 on, and the index term what lies between
      have hindex : ¬ (Int.ofNat (n + 1) < 1) := by
        rw [Int.ofNat_eq_natCast]
        omega
      have hones : (Int.ofNat (n + 1)).toNat = n + 1 := rfl
      rw [codeOnto, if_neg hindex, hones, IndexTerm.codeOnto, List.map_append, List.map_replicate]
      rfl
  | case2 p b ih =>
      obtain ⟨u, hu, rfl⟩ := Option.map_eq_some_iff.mp h
      rw [codeOnto, ih hu]
      rfl
  | case3 f a hf => cases h
  | case4 f a f' hf ihf iha =>
      obtain ⟨u, hu, rfl⟩ := Option.map_eq_some_iff.mp h
      have hfunction := ihf hf []
      rw [List.map_nil] at hfunction
      have hsides : f'.codeOnto [] ++ u.codeOnto rest = f'.codeOnto (u.codeOnto rest) :=
        codeOnto_append f' [] _
      rw [codeOnto, hfunction, iha hu, IndexTerm.codeOnto, ← hsides, List.map_cons, List.map_cons,
        List.map_append]
      rfl
  | case5 => cases h

theorem charsOnto_of_indexTerm? (h : d.indexTerm? = some t) (rest : List Char) :
    charsOnto d rest = .ok (t.charsOnto rest) := by
  fun_induction indexTerm? d generalizing t rest with
  | case1 n =>
      cases h
      exact congrArg (Except.ok <| · ++ rest) (toList_toString_natCast (n + 1))
  | case2 p b ih =>
      obtain ⟨u, hu, rfl⟩ := Option.map_eq_some_iff.mp h
      rw [charsOnto, ih hu]
      rfl
  | case3 f a hf => cases h
  | case4 f a f' hf ihf iha =>
      obtain ⟨u, hu, rfl⟩ := Option.map_eq_some_iff.mp h
      have hsides : f'.charsOnto [' '] ++ u.charsOnto (')' :: rest) =
          f'.charsOnto (' ' :: u.charsOnto (')' :: rest)) := charsOnto_append f' [' '] _
      rw [charsOnto, ihf hf, iha hu, IndexTerm.charsOnto, ← hsides]
      rfl
  | case5 => cases h

/-- The binary code of an index term is written. -/
theorem bits_of_indexTerm? (h : d.indexTerm? = some t) : bits d = .ok t.bits := by
  rw [bits, ← List.map_nil, codeOnto_of_indexTerm? h]
  rfl

/-- The written form of an index term is written. -/
theorem indexText_of_indexTerm? (h : d.indexTerm? = some t) : indexText d = .ok t.text := by
  rw [indexText, charsOnto_of_indexTerm? h]
  rfl

end

end Walk

/-! ## Operations on drafts

Each is its walk, whatever the draft is. -/

theorem freeNames_eq_walk (d : Draft) : d.freeNames = Walk.freeNames d :=
  eq_walk Walk.freeNames Walk.freeNames_ofTerm d

theorem occursFree_eq_walk (x : String) (d : Draft) :
    d.occursFree x = Walk.occursFree (some x) d :=
  eq_walk (Walk.occursFree x) (Walk.occursFree_ofTerm x) d

theorem bindsFree_eq_walk (binder x : String) (d : Draft) :
    d.bindsFree binder x = Walk.bindsFree binder x d :=
  eq_walk (Walk.bindsFree binder x) (Walk.bindsFree_ofTerm binder x) d

theorem tokens_eq_walk (d : Draft) : d.tokens = Walk.tokensOnto d [] :=
  eq_walk (Walk.tokensOnto · []) (Walk.tokensOnto_ofTerm · []) d

theorem text_eq_walk (d : Draft) : d.text = Walk.text d := eq_walk Walk.text Walk.text_ofTerm d

theorem hasRedex_eq_walk (d : Draft) : d.hasRedex = Walk.hasRedex d :=
  eq_walk Walk.hasRedex Walk.hasRedex_ofTerm d

theorem rename_eq_walk (old new : String) (d : Draft) : d.rename old new = Walk.rename old new d :=
  eq_walk (Walk.rename old new) (Walk.rename_ofTerm old new) d

theorem freshName_eq_walk (name : String) (body : Draft) (avoid : List String) :
    freshName name body avoid = Walk.freshName name body avoid :=
  eq_walk (Walk.freshName name · avoid) (Walk.freshName_ofTerm name · avoid) body

theorem step_eq_walk (d : Draft) : d.step = Walk.step d := eq_walk Walk.step Walk.step_ofTerm d

theorem churchValue?_eq_walk (d : Draft) : d.churchValue? = Walk.churchValue? d :=
  eq_walk Walk.churchValue? Walk.churchValue?_ofTerm d

theorem alphaConvert_eq_walk (p : Option String) (body : Draft) (avoid : List String) :
    alphaConvert (.lam p body) avoid =
      (Walk.alphaConvert p body avoid).map fun r => .lam (some r.1) r.2.1 := by
  unfold alphaConvert
  split
  · rename_i q b hterm
    cases eq_ofTerm_of_term? hterm
    cases hfresh : Term.freshName q b avoid with
    | ok c =>
        obtain ⟨hsize, halpha⟩ := Walk.alphaConvert_of_ok hfresh
        rw [halpha, Term.alphaConvert, hfresh]
        rfl
    | error e =>
        rw [Walk.alphaConvert_of_error hfresh, Term.alphaConvert, hfresh]
        rfl
  · rename_i heq hnot
    cases heq
    rfl
  · rename_i hnot
    exact absurd rfl (hnot p body)

theorem substitute_eq_walk (value : Draft) (x : String) (body : Draft) :
    substitute value x body = Walk.substitute value (some x) body := by
  unfold substitute
  split
  · rename_i v b hv hb
    rw [eq_ofTerm_of_term? hv, eq_ofTerm_of_term? hb, Walk.substitute_ofTerm]
  · rfl

theorem contract_eq_walk (function argument : Draft) :
    contract function argument = Walk.contract function argument := by
  unfold contract
  split
  · rename_i p b a hf ha
    rw [eq_ofTerm_of_term? hf, eq_ofTerm_of_term? ha, ofTerm, Walk.contract,
      Walk.substitute_ofTerm]
    rfl
  · rfl

theorem indexed_eq_walk (context : List String) (registry : Option (List String)) (d : Draft) :
    indexed context registry d = Walk.indexed context registry d := by
  unfold indexed
  split
  · rename_i t ht
    rw [eq_ofTerm_of_term? ht, Walk.indexed_none_ofTerm]
  · rename_i t names ht
    rw [eq_ofTerm_of_term? ht, Walk.indexed_some_ofTerm]
  · rfl

theorem bits_eq_walk (d : Draft) : d.bits = Walk.bits d := by
  rw [bits]
  cases h : d.indexTerm? with
  | none => rfl
  | some t => rw [Walk.bits_of_indexTerm? h]

theorem indexText_eq_walk (d : Draft) : d.indexText = Walk.indexText d := by
  rw [indexText]
  cases h : d.indexTerm? with
  | none => rfl
  | some t => rw [Walk.indexText_of_indexTerm? h]

end Draft

/-! ## Runs -/

section

variable {τ τ' ε ε' : Type}

/-- The trees of one calculus stand for trees of another, which steps alike. -/
structure Calculus.Embeds (c : Calculus τ ε) (c' : Calculus τ' ε') (onTree : τ → τ')
    (onFault : ε → ε') : Prop where
  hasRedex : ∀ t, c'.hasRedex (onTree t) = (c.hasRedex t).mapError onFault
  step : ∀ t, c'.step (onTree t) = ((c.step t).map onTree).mapError onFault
  text : ∀ t, c'.text (onTree t) = (c.text t).mapError onFault

/-- The same reducer of trees of another type. -/
def Reducer.map (onTree : τ → τ') (r : Reducer τ) : Reducer τ' :=
  ⟨onTree r.initial, onTree r.tree, r.steps, r.cap⟩

variable {c : Calculus τ ε} {c' : Calculus τ' ε'} {onTree : τ → τ'} {onFault : ε → ε'}

theorem Calculus.Embeds.advance (h : c.Embeds c' onTree onFault) (watched : Bool)
    (remaining : Nat) (r : Reducer τ) :
    (r.map onTree).advance c' watched remaining =
      (r.advance c watched remaining).map onTree onFault := by
  induction remaining generalizing r with
  | zero => rfl
  | succ remaining ih =>
      have hredex : c'.hasRedex (r.map onTree).tree = (c.hasRedex r.tree).mapError onFault :=
        h.hasRedex r.tree
      have hstep : c'.step (r.map onTree).tree =
          ((c.step r.tree).map onTree).mapError onFault := h.step r.tree
      rw [Reducer.advance, Reducer.advance, hredex, hstep]
      rcases c.hasRedex r.tree with e | _ | _
      · rfl
      · rfl
      · cases c.step r.tree with
        | error e => rfl
        | ok t =>
            have hrest := ih { r with tree := t, steps := r.steps + 1 }
            cases watched with
            | false => exact hrest
            | true =>
                dsimp only [Except.map, Except.mapError]
                rw [if_pos rfl, if_pos rfl, h.text t]
                cases c.text t with
                | error e => rfl
                | ok s =>
                    exact congrArg (fun run => { run with events := .step s :: run.events }) hrest

/-- A run of what a tree stands for is the run of the tree. -/
theorem Calculus.Embeds.run (h : c.Embeds c' onTree onFault) (r : Reducer τ) (watched : Bool) :
    (r.map onTree).run c' watched = (r.run c watched).map onTree onFault := by
  have hadvance : (r.map onTree).advance c' watched
      ((r.map onTree).cap - (r.map onTree).steps).toNat =
        (r.advance c watched (r.cap - r.steps).toNat).map onTree onFault :=
    h.advance watched (r.cap - r.steps).toNat r
  unfold Reducer.run
  rw [hadvance]
  rcases r.advance c watched (r.cap - r.steps).toNat with ⟨reducer, events, _ | e⟩
  · cases watched with
    | false => rfl
    | true =>
        have hredex := h.hasRedex reducer.tree
        have htext : c'.text (r.map onTree).initial = (c.text r.initial).mapError onFault :=
          h.text r.initial
        simp only [Run.map, Option.map_none, Option.isSome_none, Bool.not_true, Bool.or_false,
          Bool.false_eq_true, if_false, hredex, htext]
        rcases c.hasRedex reducer.tree with e | _ | _
        · rfl
        · rfl
        · cases c.text r.initial <;> rfl
  · cases watched <;> rfl

end

namespace Draft

/-- Drafts that are terms step as the terms do. -/
theorem embeds_calculus : Term.calculus.Embeds calculus ofTerm .freshName where
  hasRedex t := by
    change hasRedex (ofTerm t) = _
    rw [hasRedex_eq_walk, Walk.hasRedex_ofTerm]
    rfl
  step t := by
    change step (ofTerm t) = _
    rw [step_eq_walk, Walk.step_ofTerm]
    rfl
  text t := by
    change text (ofTerm t) = _
    rw [text_eq_walk, Walk.text_ofTerm]
    rfl

/-- A run from a draft, term or not, is one of the calculus of drafts. -/
theorem run_eq (watched : Bool) (d : Draft) (cap : Int) :
    d.run watched cap = (Reducer.start d cap).map (·.run calculus watched) := by
  unfold run
  cases hd : d.term? with
  | none => rfl
  | some t =>
      rw [eq_ofTerm_of_term? hd]
      unfold Reducer.start
      split_ifs
      · rfl
      · exact congrArg Except.ok (embeds_calculus.run ⟨t, t, 0, cap⟩ watched).symm

end Draft

end BinaryLambda
