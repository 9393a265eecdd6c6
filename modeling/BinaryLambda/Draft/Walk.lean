import BinaryLambda.Draft.Basic

set_option autoImplicit false

/-!
# Drafts: walking a tree that may be no term

The operations on terms, for any draft.  Each looks at nodes from left to right,
stops looking once its answer is settled, and fails at the first node it cannot
read.  The binder of an abstraction may be missing; it then differs from every
name.
-/

namespace BinaryLambda.Draft.Walk

/-- The names of the free occurrences of variables, from left to right. -/
def freeNames : Draft → Except Fault (List String)
  | .var x => .ok [x]
  | .lam p b => b |> freeNames |>.map (·.filter fun x => some x != p)
  | .app f a => do
    let fs ← freeNames f
    let as ← freeNames a
    return fs ++ as
  | d => .error (.notNamed d)

/-- Whether the name has a free occurrence. -/
def occursFree (x : Option String) : Draft → Except Fault Bool
  | .var y => .ok (x == some y)
  | .lam p b => if p = x then .ok false else occursFree x b
  | .app f a => do
    if ← occursFree x f then return true
    occursFree x a
  | d => .error (.notNamed d)

/-- Whether a binder named `binder` has a free occurrence of `x` beneath it. -/
def bindsFree (binder x : String) : Draft → Except Fault Bool
  | .var _ => .ok false
  | .lam p b =>
    if p = some x then .ok false
    else if p = some binder then occursFree (some x) b
    else bindsFree binder x b
  | .app f a => do
    if ← bindsFree binder x f then return true
    bindsFree binder x a
  | d => .error (.notNamed d)

/-- The tokens of a draft, followed by `rest`. -/
def tokensOnto : Draft → List Token → Except Fault (List Token)
  | .var x, rest => .ok (.letter x :: rest)
  | .lam (some p) b, rest => do
    let ts ← tokensOnto b rest
    return .lambda :: .letter p :: .dot :: ts
  | .app f a, rest => do
    let fs ← tokensOnto f []
    let as ← tokensOnto a (.rightParen :: rest)
    return .leftParen :: (fs ++ as)
  | d, _ => .error (.notWritable d)

/-- The canonical text of a draft. -/
def text (d : Draft) : Except Fault String := (tokensOnto d []).map Token.spell

/-- Whether a draft contains a redex. -/
def hasRedex : Draft → Except Fault Bool
  | .var _ => .ok false
  | .lam _ b => hasRedex b
  | .app (.lam _ _) _ => .ok true
  | .app f a => do
    if ← hasRedex f then return true
    hasRedex a
  | d => .error (.notNamed d)

/-- Renames the free occurrences of `old` to `new`. -/
def rename (old new : String) : Draft → Except Fault Draft
  | .var x => .ok (.var (if x = old then new else x))
  | .lam p b =>
    if p = some old ∨ p = some new then .ok (.lam p b)
    else (rename old new b).map (.lam p)
  | .app f a => do
    let f' ← rename old new f
    let a' ← rename old new a
    return .app f' a'
  | d => .error (.notNamed d)

/-- The number of nodes of a draft. -/
def size : Draft → Nat
  | .lam _ b => size b + 1
  | .app f a => size f + size a + 1
  | _ => 1

theorem size_rename {old new : String} {d r : Draft} (h : rename old new d = .ok r) :
    size r = size d := by
  induction d generalizing r with
  | var x => simp only [rename, Except.ok.injEq] at h; subst h; rfl
  | lam p b ih =>
    simp only [rename] at h
    split at h
    · cases h; rfl
    · cases hb : rename old new b with
      | error e => simp [hb, Except.map] at h
      | ok b' => simp only [hb, Except.map, Except.ok.injEq] at h; subst h; simp [size, ih hb]
  | app f a ihf iha =>
    simp only [rename] at h
    cases hf : rename old new f with
    | error e => simp [hf, bind, Except.bind] at h
    | ok f' =>
      cases ha : rename old new a with
      | error e => simp [hf, ha, bind, Except.bind] at h
      | ok a' =>
        simp only [hf, ha, bind, Except.bind, pure, Except.pure, Except.ok.injEq] at h
        subst h; simp [size, ihf hf, iha ha]
  | index n => cases h
  | hole => cases h

/-- The first name of `names` to which the binder `name` of `body` may be
renamed. -/
def firstFresh (name : String) (body : Draft) (avoid : List String) :
    List String → Except Fault (Option String)
  | [] => .ok none
  | c :: cs => do
    if c = name ∨ avoid.contains c then firstFresh name body avoid cs
    else if ← occursFree (some c) body then firstFresh name body avoid cs
    else if ← bindsFree c name body then firstFresh name body avoid cs
    else return some c

/-- The first letter to which the binder `name` of `body` may be renamed.  The
failure shows the body, which has to be a term for that. -/
def freshName (name : String) (body : Draft) (avoid : List String) : Except Fault String := do
  match ← firstFresh name body avoid (Term.candidates name) with
  | some c => return c
  | none =>
    let _ ← text body
    match body.term? with
    | some t => throw (.freshName ⟨name, t⟩)
    | none => throw (.notNamed body)

/-- The new binder and the renamed body of an abstraction. -/
def alphaConvert (p : Option String) (body : Draft) (avoid : List String) :
    Except Fault (String × { b : Draft // size b = size body }) :=
  match p with
  | none => .error .nameless
  | some name =>
    match freshName name body avoid with
    | .error e => .error e
    | .ok c =>
      match h : rename name c body with
      | .error e => .error e
      | .ok b => .ok (c, ⟨b, size_rename h⟩)

/-- Replaces the free occurrences of `x` by `value`. -/
def substitute (value : Draft) (x : Option String) (d : Draft) : Except Fault Draft :=
  match d with
  | .var y => .ok (if some y = x then value else .var y)
  | .lam p b =>
    if p = x then .ok (.lam p b)
    else
      match occursFree p value with
      | .error e => .error e
      | .ok false => (substitute value x b).map (.lam p)
      | .ok true =>
        match occursFree x b with
        | .error e => .error e
        | .ok false => .ok (.lam p b)
        | .ok true =>
          match freeNames value with
          | .error e => .error e
          | .ok names =>
            match alphaConvert p b (x.toList ++ names) with
            | .error e => .error e
            | .ok (c, ⟨b', _⟩) => (substitute value x b').map (.lam (some c))
  | .app f a =>
    match substitute value x f with
    | .error e => .error e
    | .ok f' => (substitute value x a).map (.app f')
  | d => .error (.notNamed d)
termination_by size d
decreasing_by all_goals simp only [size]; omega

/-- Contracts the redex of an abstraction and an argument. -/
def contract (function argument : Draft) : Except Fault Draft :=
  match function with
  | .lam p b => substitute argument p b
  | d => .error (.noAbstraction d)

/-- One step of reduction. -/
def step : Draft → Except Fault Draft
  | .var x => .ok (.var x)
  | .lam p b => (step b).map (.lam p)
  | .app (.lam p b) a => substitute a p b
  | .app f a =>
    match step f with
    | .error e => .error e
    | .ok f' => (step a).map (.app f')
  | d => .error (.notNamed d)

/-! ## Indices -/

/-- The index form of a draft against the names around it and, if there is one, a
registry of free names.  The registry keeps what was added to it before a
failure. -/
def indexed (context : List String) (registry : Option (List String)) :
    Draft → Option (List String) × Except Fault Draft
  | .var x =>
    match context.idxOf? x with
    | some i => (registry, .ok (.index (i + 1)))
    | none =>
      match registry with
      | none => (none, .error (.unbound ⟨x⟩))
      | some names =>
        let (i, names) := Term.register names x
        (some names, .ok (.index (context.length + i + 1)))
  | .lam none _ => (registry, .error .nameless)
  | .lam (some p) b =>
    let (registry, r) := indexed (p :: context) registry b
    (registry, r.map (.lam none))
  | .app f a =>
    match indexed context registry f with
    | (registry, .error e) => (registry, .error e)
    | (registry, .ok f') =>
      let (registry, r) := indexed context registry a
      (registry, r.map (.app f'))
  | d => (registry, .error (.notNamed d))

/-- The binary code of a draft in which every variable is an index, followed by
`rest`. -/
def codeOnto : Draft → List Char → Except Fault (List Char)
  | .index n, rest =>
    if n < 1 then .error (.indexBelowOne n)
    else .ok (List.replicate n.toNat '1' ++ '0' :: rest)
  | .lam _ b, rest => (codeOnto b rest).map ('0' :: '0' :: ·)
  | .app f a, rest => do
    let fs ← codeOnto f []
    let as ← codeOnto a rest
    return '0' :: '1' :: (fs ++ as)
  | d, _ => .error (.notIndexed d)

/-- The binary code of a draft in which every variable is an index. -/
def bits (d : Draft) : Except Fault String := (codeOnto d []).map String.ofList

/-- The written form of a draft in which every variable is an index, followed by
`rest`.  An index below 1 is written too. -/
def charsOnto : Draft → List Char → Except Fault (List Char)
  | .index n, rest => .ok ((toString n).toList ++ rest)
  | .lam _ b, rest => (charsOnto b rest).map ('λ' :: '.' :: ·)
  | .app f a, rest => do
    let fs ← charsOnto f [' ']
    let as ← charsOnto a (')' :: rest)
    return '(' :: (fs ++ as)
  | d, _ => .error (.notIndexed d)

/-- The written form of a draft in which every variable is an index. -/
def indexText (d : Draft) : Except Fault String := (charsOnto d []).map String.ofList

/-! ## Church numerals -/

/-- A draft is the variable of a binder; nothing is the variable of a missing
binder. -/
def isVariable (p : Option String) : Draft → Bool
  | .var x => some x == p
  | .hole => p.isNone
  | _ => false

/-- How often the variable of `f` is applied to the variable of `x`. -/
def countApplications (f x : Option String) : Draft → Option Nat
  | .var y => if some y = x then some 0 else none
  | .app g a => if isVariable f g then (countApplications f x a).map (· + 1) else none
  | _ => none

/-- The number of which a draft is the Church numeral. -/
def churchValue? : Draft → Option Nat
  | .lam f (.lam x b) => if f = x then none else countApplications f x b
  | _ => none

end BinaryLambda.Draft.Walk
