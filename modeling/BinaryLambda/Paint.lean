set_option autoImplicit false

/-!
# Paint: bold and coloured text

Painted text stands between control sequences: bold first, then the colour, then
the text, then the reset.  An empty text is painted like any other.  With paint
switched off every text is left as it is.
-/

namespace BinaryLambda

/-- The colours of reports. -/
inductive Colour where
  | red
  | magenta
  | cyan
  deriving DecidableEq, Repr, Inhabited

namespace Paint

/-- The control sequence of a code. -/
def control (code : Nat) : String := s!"\x1b[{code}m"

/-- The code of a colour. -/
def code : Colour → Nat
  | .red => 31
  | .magenta => 35
  | .cyan => 36

/-- A text in bold. -/
def bold (painted : Bool) (s : String) : String :=
  if painted then control 1 ++ s ++ control 0 else s

/-- A text in bold and in colour. -/
def boldIn (painted : Bool) (colour : Colour) (s : String) : String :=
  if painted then control 1 ++ control (code colour) ++ s ++ control 0 else s

@[simp] theorem bold_false (s : String) : bold false s = s := rfl

@[simp] theorem boldIn_false (colour : Colour) (s : String) : boldIn false colour s = s := rfl

end Paint

end BinaryLambda
