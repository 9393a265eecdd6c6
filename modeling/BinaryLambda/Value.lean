import BinaryLambda.Decimal.Shortest
import BinaryLambda.Text.Quoted

set_option autoImplicit false

/-!
# Values from outside

A caller that is not bound by the types of this library may hand in any value
where a natural number, a token or the snippet of a message belongs.  Such a
value is either converted or shown in the message that refuses it.  It has two
texts: its literal form, in which texts are quoted, and its plain form, in which
a text stands for itself.
-/

namespace BinaryLambda

/-- A value from outside. -/
inductive Value where
  | null
  | bool (b : Bool)
  | int (i : Int)
  | float (x : Decimal.Binary64)
  | text (s : String)
  | list (items : List Value)
  | record (fields : List (String × Value))
  deriving Repr, Inhabited

namespace Value

mutual

/-- The literal form of a value. -/
def literal : Value → String
  | null => "None"
  | bool b => if b then "True" else "False"
  | int i => toString i
  | float x => x.text
  | text s => Text.quoted s
  | list items => "[" ++ ", ".intercalate (literals items) ++ "]"
  | record fields => "\x7b" ++ ", ".intercalate (fieldLiterals fields) ++ "\x7d"

/-- The literal forms of the items of a list. -/
def literals : List Value → List String
  | [] => []
  | v :: vs => literal v :: literals vs

/-- The literal forms of the fields of a record. -/
def fieldLiterals : List (String × Value) → List String
  | [] => []
  | (name, v) :: fields => (Text.quoted name ++ ": " ++ literal v) :: fieldLiterals fields

end

/-- The plain form of a value. -/
def plain : Value → String
  | text s => s
  | v => v.literal

@[simp] theorem plain_text (s : String) : (text s).plain = s := rfl

end Value

end BinaryLambda
