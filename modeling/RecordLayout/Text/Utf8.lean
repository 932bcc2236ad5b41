/-!
# UTF-8

Text is stored as UTF-8. Reading it back accepts exactly the well formed sequences: no overlong
form, no surrogate, nothing above U+10FFFF. A refusal names the first byte of the sequence at fault
and either the length of its well formed beginning or the fact that the data ended inside it.
-/

namespace RecordLayout.Text.Utf8

/-- The bytes of a text. -/
def encode (text : String) : List UInt8 :=
  text.toList.flatMap String.utf8EncodeChar

/-- Why a byte sequence is not UTF-8. -/
inductive Fault where
  /-- The sequence that starts at `start` goes wrong after `length` bytes. -/
  | invalid (length start : Nat)
  /-- The data ends inside the sequence that starts at `start`. -/
  | incomplete (start : Nat)
  deriving DecidableEq, Repr

/-- The wording of a refusal. -/
def Fault.message : Fault → String
  | .invalid length start =>
    s!"invalid utf-8 sequence of {length} bytes from index {start}"
  | .incomplete start => s!"incomplete utf-8 byte sequence from index {start}"

/-- A character whose bytes have begun to arrive: `got` bytes so far, `bits` of its number, `owed`
bytes to come, the next one between `low` and `high`. -/
structure Begun where
  start : Nat
  got : Nat
  bits : Nat
  owed : Nat
  low : Nat
  high : Nat

/-- What the first byte of a character of several bytes promises. -/
def Begun.ofLead (start b : Nat) : Option Begun :=
  if 0xC2 ≤ b ∧ b ≤ 0xDF then some ⟨start, 1, b - 0xC0, 1, 0x80, 0xBF⟩
  else if b = 0xE0 then some ⟨start, 1, 0, 2, 0xA0, 0xBF⟩
  else if b = 0xED then some ⟨start, 1, 0xD, 2, 0x80, 0x9F⟩
  else if 0xE1 ≤ b ∧ b ≤ 0xEF then some ⟨start, 1, b - 0xE0, 2, 0x80, 0xBF⟩
  else if b = 0xF0 then some ⟨start, 1, 0, 3, 0x90, 0xBF⟩
  else if b = 0xF4 then some ⟨start, 1, 4, 3, 0x80, 0x8F⟩
  else if 0xF1 ≤ b ∧ b ≤ 0xF3 then some ⟨start, 1, b - 0xF0, 3, 0x80, 0xBF⟩
  else none

/-- The characters of `bytes`, the first of which has index `index`; `begun` is the character that
earlier bytes have started. -/
def decodeFrom (index : Nat) (begun : Option Begun) : List UInt8 → Except Fault (List Char)
  | [] =>
    match begun with
    | none => .ok []
    | some p => .error (.incomplete p.start)
  | b :: rest =>
    match begun with
    | none =>
      if b.toNat < 0x80 then
        (decodeFrom (index + 1) none rest).map (Char.ofNat b.toNat :: ·)
      else
        match Begun.ofLead index b.toNat with
        | none => .error (.invalid 1 index)
        | some p => decodeFrom (index + 1) (some p) rest
    | some p =>
      if p.low ≤ b.toNat ∧ b.toNat ≤ p.high then
        let bits := p.bits * 64 + (b.toNat - 0x80)
        if p.owed = 1 then (decodeFrom (index + 1) none rest).map (Char.ofNat bits :: ·)
        else
          decodeFrom (index + 1) (some ⟨p.start, p.got + 1, bits, p.owed - 1, 0x80, 0xBF⟩) rest
      else .error (.invalid p.got p.start)

/-- The text that a byte sequence spells. -/
def decode (bytes : List UInt8) : Except Fault String :=
  (decodeFrom 0 none bytes).map String.ofList

end RecordLayout.Text.Utf8
