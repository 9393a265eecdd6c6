import BinaryLambda.Text.Quoted

set_option autoImplicit false

/-!
# Text: decoding bytes

Bytes are decoded strictly as UTF-8.  The first byte of a character says how many
continuation bytes follow and in which range the first of them lies; that range
excludes overlong forms, surrogates and code points beyond U+10FFFF.  The bytes
that were accepted before a fault are the ones it names.
-/

namespace BinaryLambda.Text.Utf8

/-- Why bytes are no character. -/
inductive Reason where
  | invalidStart
  | invalidContinuation
  | unexpectedEnd
  deriving DecidableEq, Repr, Inhabited

/-- The wording of a reason. -/
def Reason.text : Reason → String
  | invalidStart => "invalid start byte"
  | invalidContinuation => "invalid continuation byte"
  | unexpectedEnd => "unexpected end of data"

/-- Bytes that are no character: how many from `position` on, the first of them,
and the reason. -/
structure Fault where
  first : Nat
  count : Nat
  position : Nat
  reason : Reason
  deriving DecidableEq, Repr, Inhabited

/-- The wording of a fault. -/
def Fault.message (e : Fault) : String :=
  let bytes :=
    if e.count = 1 then
      s!"byte 0x{String.ofList (hexadecimal 2 e.first)} in position {e.position}"
    else s!"bytes in position {e.position}-{e.position + e.count - 1}"
  s!"'utf-8' codec can't decode {bytes}: {e.reason.text}"

/-- The number of continuation bytes that follow, the range of the first of them,
and the bits read so far. -/
structure Pending where
  needed : Nat
  least : Nat
  greatest : Nat
  bits : Nat
  deriving DecidableEq, Repr, Inhabited

/-- What a first byte announces. -/
def announced? (b : Nat) : Option Pending :=
  if b < 0x80 then some ⟨0, 0x80, 0xBF, b⟩
  else if b < 0xC2 then none
  else if b < 0xE0 then some ⟨1, 0x80, 0xBF, b - 0xC0⟩
  else if b < 0xF0 then
    some ⟨2, if b = 0xE0 then 0xA0 else 0x80, if b = 0xED then 0x9F else 0xBF, b - 0xE0⟩
  else if b < 0xF5 then
    some ⟨3, if b = 0xF0 then 0x90 else 0x80, if b = 0xF4 then 0x8F else 0xBF, b - 0xF0⟩
  else none

/-- Reads the `needed` continuation bytes that are left of a character of which
`used` bytes were read: the character, its number of bytes and the bytes after
it, or the number of bytes accepted and the reason why the next one is not. -/
def continued (used least greatest bits : Nat) :
    Nat → (bs : List UInt8) →
      Except (Nat × Reason) (Char × Nat × { rest : List UInt8 // rest.length ≤ bs.length })
  | 0, bs => .ok (Char.ofNat bits, used, ⟨bs, Nat.le_refl _⟩)
  | _ + 1, [] => .error (used, .unexpectedEnd)
  | needed + 1, b :: rest =>
    if least ≤ b.toNat ∧ b.toNat ≤ greatest then
      match continued (used + 1) 0x80 0xBF (bits * 64 + (b.toNat - 0x80)) needed rest with
      | .error e => .error e
      | .ok (c, count, ⟨rest', h⟩) =>
        .ok (c, count, ⟨rest', by simp only [List.length_cons]; omega⟩)
    else .error (used, .invalidContinuation)

/-- The characters of the bytes from `position` on. -/
def decodeFrom (position : Nat) (bs : List UInt8) : Except Fault (List Char) :=
  match bs with
  | [] => .ok []
  | b :: rest =>
    match announced? b.toNat with
    | none => .error ⟨b.toNat, 1, position, .invalidStart⟩
    | some p =>
      match continued 1 p.least p.greatest p.bits p.needed rest with
      | .error (count, reason) => .error ⟨b.toNat, count, position, reason⟩
      | .ok (c, count, ⟨rest', _⟩) => (decodeFrom (position + count) rest').map (c :: ·)
termination_by bs.length
decreasing_by simp only [List.length_cons]; omega

/-- The text of bytes. -/
def decode (bs : ByteArray) : Except Fault String :=
  (decodeFrom 0 bs.toList).map String.ofList

end BinaryLambda.Text.Utf8
