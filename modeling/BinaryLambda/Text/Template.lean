import BinaryLambda.Text.Digit

set_option autoImplicit false

/-!
# Text: message templates

A template is a text with slots in braces.  An empty slot takes the fillings in
order, a numbered slot takes the filling of that number, counted from zero, and
one template uses only one of the two kinds.  A doubled brace stands for a brace.
Fillings are inserted as they are: braces in them mean nothing.  A template is
read from left to right, and the first thing wrong with it is reported.
-/

namespace BinaryLambda.Text.Template

/-- What is wrong with a template, or with the fillings it was given. -/
inductive Fault where
  /-- a closing brace that closes no slot -/
  | loneClose
  /-- an opening brace at the end of the template -/
  | loneOpen
  /-- a slot that is not closed -/
  | unclosed
  /-- an opening brace inside a slot -/
  | braceInSlot
  /-- a slot numbered beyond the last filling -/
  | noFilling (slot : Nat)
  /-- a slot that is named instead of numbered -/
  | named (slot : String)
  /-- an empty slot after a numbered one -/
  | emptyAfterNumbered
  /-- a numbered slot after an empty one -/
  | numberedAfterEmpty
  deriving DecidableEq, Repr, Inhabited

/-- The wording of a fault. -/
def Fault.message : Fault → String
  | .loneClose => "Single '\x7d' encountered in format string"
  | .loneOpen => "Single '\x7b' encountered in format string"
  | .unclosed => "expected '\x7d' before end of string"
  | .braceInSlot => "unexpected '\x7b' in field name"
  | .noFilling slot => s!"Replacement index {slot} out of range for positional args tuple"
  | .named slot => slot
  | .emptyAfterNumbered =>
    "cannot switch from manual field specification to automatic field numbering"
  | .numberedAfterEmpty =>
    "cannot switch from automatic field numbering to manual field specification"

/-- Which kind of slot the template has used so far. -/
inductive Numbering where
  | undecided
  /-- empty slots, `next` of them so far -/
  | empty (next : Nat)
  | numbered
  deriving DecidableEq, Repr, Inhabited

/-- The filling of a number. -/
def filling (fillings : List String) (i : Nat) : Except Fault String :=
  match fillings[i]? with
  | some s => .ok s
  | none => .error (.noFilling i)

/-- The slot of a template whose name is `name`, and the numbering after it. -/
def slot (name : List Char) (fillings : List String) (numbering : Numbering) :
    Except Fault (String × Numbering) :=
  if name.isEmpty then
    match numbering with
    | .numbered => .error .emptyAfterNumbered
    | .undecided => (filling fillings 0).map (·, .empty 1)
    | .empty next => (filling fillings next).map (·, .empty (next + 1))
  else if name.all isDigit then
    match numbering with
    | .empty _ => .error .numberedAfterEmpty
    | _ => (filling fillings (digitsValue name)).map (·, .numbered)
  else .error (.named (String.ofList name))

/-- An opening or a closing brace. -/
def isBrace (c : Char) : Bool := c == '\x7b' || c == '\x7d'

/-- Fills a template from left to right, `done` being the text written so far in
reverse. -/
def fillFrom (fillings : List String) (numbering : Numbering) (done : List Char) :
    List Char → Except Fault String
  | [] => .ok (String.ofList done.reverse)
  | '\x7b' :: '\x7b' :: cs => fillFrom fillings numbering ('\x7b' :: done) cs
  | '\x7d' :: '\x7d' :: cs => fillFrom fillings numbering ('\x7d' :: done) cs
  | ['\x7b'] => .error .loneOpen
  | '\x7b' :: cs =>
    match h : cs.dropWhile (!isBrace ·) with
    | [] => .error .unclosed
    | '\x7b' :: _ => .error .braceInSlot
    | _ :: rest =>
      have : rest.length < cs.length := by
        have := (List.dropWhile_sublist (!isBrace ·) (l := cs)).length_le
        rw [h] at this
        exact this
      match slot (cs.takeWhile (!isBrace ·)) fillings numbering with
      | .error e => .error e
      | .ok (inserted, numbering) =>
        fillFrom fillings numbering (inserted.toList.reverse ++ done) rest
  | '\x7d' :: _ => .error .loneClose
  | c :: cs => fillFrom fillings numbering (c :: done) cs
termination_by cs => cs.length

/-- The template with its slots filled. -/
def fill (template : String) (fillings : List String) : Except Fault String :=
  fillFrom fillings .undecided [] template.toList

end BinaryLambda.Text.Template
