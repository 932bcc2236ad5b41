import RecordLayout.Bits.Reader
import RecordLayout.Bits.Writer

/-!
# Custom types

A caller may add types of its own. A custom type does not touch the stream: what it reads or writes
is a program of requests, which the pass carries out in its bit order, and which continues with the
answer to each request, a failure included. A program comes to an end whatever the answers are. One
that goes on for as long as the stream does is told how many bits the stream still has, and recurses
on this number.
-/

namespace RecordLayout

/-- What a custom type is told about the declaration it works for. -/
structure CustomField where
  /-- The type name in the script. -/
  type : String
  info : Option FieldInfo
  /-- The value of the parameter, if there is one. -/
  extra : Option Int64
  order : ByteOrder

/-- How a custom type reads a value. -/
inductive ReadProgram where
  | done (result : Except Error Value)
  | bits (width : UInt32) (next : Except Error UInt64 → ReadProgram)
  | byte (next : Except Error UInt8 → ReadProgram)
  | exhausted (next : Except Error Bool → ReadProgram)
  /-- Is told how many bits can still be read, which bounds the requests that can be met. -/
  | measured (next : (remaining : Nat) → ReadProgram)

/-- How a custom type writes a value. -/
inductive WriteProgram where
  | done (result : Except Error Unit)
  | bits (value : UInt64) (width : UInt32) (next : Except Error Unit → WriteProgram)
  | byte (b : UInt8) (next : Except Error Unit → WriteProgram)

/-- A custom type, or several with one implementation. -/
structure CustomType where
  /-- The type names it answers to. -/
  names : List String
  /-- Whether a declaration may have this type name, a parameter or not, be an array or not. -/
  allows : (name : String) → (hasExtra isArray : Bool) → Bool
  read : CustomField → ReadProgram
  write : CustomField → Value → WriteProgram

/-- The result of an operation together with the state it leaves, whether it failed or not. -/
def outcome {σ α : Type} (m : EStateM Error σ α) : EStateM Error σ (Except Error α) := fun s =>
  match m s with
  | .ok x s => .ok (.ok x) s
  | .error e s => .ok (.error e) s

/-- The result as an operation. -/
def settle {σ α : Type} : Except Error α → EStateM Error σ α
  | .ok x => pure x
  | .error e => throw e

namespace ReadProgram

/-- Asks for bytes until there are no more, for a limited number at most, and continues with those
found. -/
def bytesUpTo (next : Except Error (List UInt8) → ReadProgram) :
    (limit : Nat) → (found : List UInt8) → ReadProgram
  | 0, found => next (.ok found.reverse)
  | limit + 1, found => .exhausted fun
    | .error e => next (.error e)
    | .ok true => next (.ok found.reverse)
    | .ok false => .byte fun
      | .error e => next (.error e)
      | .ok b => bytesUpTo next limit (b :: found)

/-- Asks for all bytes up to the end of the stream; each takes at least eight of the bits that
remain. -/
def toEnd (next : Except Error (List UInt8) → ReadProgram) : ReadProgram :=
  .measured fun remaining => bytesUpTo next (remaining + 1) []

end ReadProgram

/-- Carries out a reading program. -/
def ReadProgram.run (order : BitOrder) : ReadProgram → ReadM Value
  | .done result => settle result
  | .bits width next => do
    let answer ← outcome (Reader.readBits width.toNat order)
    (next answer).run order
  | .byte next => do
    let answer ← outcome (Reader.readByte order)
    (next answer).run order
  | .exhausted next => do
    let answer ← outcome Reader.isExhausted
    (next answer).run order
  | .measured next => do
    let r ← get
    (next r.remaining).run order

/-- Carries out a writing program. -/
def WriteProgram.run (order : BitOrder) : WriteProgram → WriteM Unit
  | .done result => settle result
  | .bits value width next => do
    let answer ← outcome (Writer.writeBits value width.toNat order)
    (next answer).run order
  | .byte b next => do
    let answer ← outcome (Writer.writeByte b order)
    (next answer).run order

end RecordLayout
