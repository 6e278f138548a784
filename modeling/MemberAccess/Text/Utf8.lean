/-!
Decoding of UTF-8. Malformed input is located by the index of the first byte that belongs to no
character, together with the number of bytes that could have started one.
-/
namespace MemberAccess.Utf8

inductive Malformed where
  | invalid (bytes index : Nat)
  | incomplete (index : Nat)
  deriving DecidableEq

def Malformed.message : Malformed → String
  | .invalid bytes index => s!"invalid utf-8 sequence of {bytes} bytes from index {index}"
  | .incomplete index => s!"incomplete utf-8 byte sequence from index {index}"

/-- A character of which some bytes have been read. Its next byte has to lie between `low` and
    `high`, which excludes overlong forms, surrogates and everything past the last plane. -/
structure Partial where
  owed : Nat
  low : Nat
  high : Nat
  value : Nat
  read : Nat

inductive Lead where
  | single
  | multiple (rest : Partial)
  | illegal

def lead (b : Nat) : Lead :=
  if b < 0x80 then .single
  else if b < 0xC2 then .illegal
  else if b < 0xE0 then .multiple ⟨1, 0x80, 0xBF, b - 0xC0, 1⟩
  else if b = 0xE0 then .multiple ⟨2, 0xA0, 0xBF, 0, 1⟩
  else if b = 0xED then .multiple ⟨2, 0x80, 0x9F, b - 0xE0, 1⟩
  else if b < 0xF0 then .multiple ⟨2, 0x80, 0xBF, b - 0xE0, 1⟩
  else if b = 0xF0 then .multiple ⟨3, 0x90, 0xBF, 0, 1⟩
  else if b < 0xF4 then .multiple ⟨3, 0x80, 0xBF, b - 0xF0, 1⟩
  else if b = 0xF4 then .multiple ⟨3, 0x80, 0x8F, b - 0xF0, 1⟩
  else .illegal

def decodeFrom (index : Nat) : Option Partial → List UInt8 → Except Malformed (List Char)
  | none, [] => .ok []
  | some _, [] => .error (.incomplete index)
  | none, b :: bytes =>
    match lead b.toNat with
    | .single => (decodeFrom (index + 1) none bytes).map (Char.ofNat b.toNat :: ·)
    | .multiple rest => decodeFrom index (some rest) bytes
    | .illegal => .error (.invalid 1 index)
  | some p, b :: bytes =>
    if p.low ≤ b.toNat ∧ b.toNat ≤ p.high then
      let value := p.value * 0x40 + (b.toNat - 0x80)
      if p.owed = 1 then
        (decodeFrom (index + p.read + 1) none bytes).map (Char.ofNat value :: ·)
      else
        decodeFrom index (some ⟨p.owed - 1, 0x80, 0xBF, value, p.read + 1⟩) bytes
    else .error (.invalid p.read index)

def decode (bytes : List UInt8) : Except Malformed String :=
  (decodeFrom 0 none bytes).map String.ofList

def encode (text : String) : List UInt8 := text.toUTF8.data.toList

end MemberAccess.Utf8
