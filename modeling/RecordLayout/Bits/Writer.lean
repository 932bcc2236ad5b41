import RecordLayout.Bits.Order
import RecordLayout.Bits.Sink
import RecordLayout.Error

/-!
# Writing bits

A writer fills bytes bit by bit and gives each full one to its sink. Like a reader it counts bits
and bytes since the last reset; the counter of the stream also counts a byte that is being filled,
so that it agrees with what a reader of the same data has taken. A byte that begins at a byte
boundary is given to the sink whole.
-/

namespace RecordLayout

/-- A sink with a partly filled byte. -/
structure Writer where
  sink : Sink
  /-- The byte being filled. -/
  current : UInt8
  /-- How many of its bits are filled. -/
  used : Nat
  /-- Bits written since the last reset. -/
  bitCount : Nat
  /-- Bytes given to the sink since the last reset. -/
  byteCount : Nat

/-- An operation of a writer. -/
abbrev WriteM := EStateM Error Writer

namespace Writer

/-- A writer for a sink. -/
def ofSink (sink : Sink) : Writer := ⟨sink, 0, 0, 0, 0⟩

/-- Bytes given to the sink and the one being filled. -/
def streamCount (w : Writer) : Nat := w.byteCount + (if 0 < w.used then 1 else 0)

/-- Gives a byte to the sink. -/
def emit (b : UInt8) : WriteM Unit := fun w =>
  match w.sink.put b with
  | .ok sink => .ok () { w with sink := sink, byteCount := w.byteCount + 1 }
  | .error message => .error (.device message) w

/-- Gives the byte being filled to the sink, if there is one, with zeros in the rest. -/
def flushBits : WriteM Unit := do
  let w ← get
  if 0 < w.used then
    set { w with current := 0, used := 0 }
    emit w.current

/-- One bit. -/
def putBit (order : BitOrder) (b : Bool) : WriteM Unit := do
  let w ← get
  let filled := if b then w.current ||| order.logical ((1 : UInt8) <<< UInt8.ofNat w.used) else w.current
  if w.used < 7 then set { w with current := filled, used := w.used + 1 }
  else
    set { w with current := 0, used := 0 }
    emit filled

/-- Bits in a row. -/
def putBits (order : BitOrder) : List Bool → WriteM Unit
  | [] => pure ()
  | b :: rest => do
    putBit order b
    putBits order rest

/-- The lowest bits of a number, 1 to 64 of them, the least significant first. -/
def writeBits (value : UInt64) (width : Nat) (order : BitOrder) : WriteM Unit := do
  if width = 0 ∨ 64 < width then throw (.widthOutOfRange width)
  putBits order (Bits.ofNat value.toNat width)
  modify fun w => { w with bitCount := w.bitCount + width }

/-- Eight bits. -/
def writeByte (b : UInt8) (order : BitOrder) : WriteM Unit := do
  let w ← get
  if w.used = 0 then
    emit (order.logical b)
    modify fun w => { w with bitCount := w.bitCount + 8 }
  else writeBits b.toUInt64 8 order

/-- Bytes in a row. -/
def writeBytes (bs : List UInt8) (order : BitOrder) : WriteM Unit :=
  match bs with
  | [] => pure ()
  | b :: rest => do
    writeByte b order
    writeBytes rest order

/-- A number of whole bytes. -/
def writeNumber (n size : Nat) (bytes : ByteOrder) (order : BitOrder) : WriteM Unit :=
  writeBytes (bytes.bytes n size) order

/-- The length of a text in front of it, in as few bytes as hold it. -/
def textLength (length : Nat) : List UInt8 :=
  if length < 0x80 then [.ofNat length]
  else
    let digits := (ByteOrder.big.bytes length 4).dropWhile (· == 0)
    .ofNat (0x80 + digits.length) :: digits

/-- A text behind its length, or the mark that there is none. -/
def writeText (text : Option String) (order : BitOrder) : WriteM Unit := do
  match text with
  | none => writeByte 0xFF order
  | some text =>
    let body := Text.Utf8.encode text
    if 2 ^ 32 ≤ body.length then throw (.textTooLong body.length)
    writeBytes (textLength body.length) order
    writeBytes body order

/-- Zero bytes. -/
def skipBytes : (count : Nat) → WriteM Unit
  | 0 => pure ()
  | count + 1 => do
    writeByte 0 .lsb0
    skipBytes count

/-- Fills up the byte being filled with zeros, which count as written. -/
def leaveByte : WriteM Unit := do
  let w ← get
  if 0 < w.used then
    set { w with bitCount := w.bitCount + (8 - w.used) }
    flushBits

/-- Fills up the byte being filled and writes zero bytes to a multiple of `n` bytes. -/
def align (n : Nat) : WriteM Unit := do
  leaveByte
  let w ← get
  skipBytes ((n - w.byteCount % n) % n)

/-- Fills up the byte being filled and counts from zero again. -/
def reset : WriteM Unit := do
  flushBits
  modify fun w => { w with bitCount := 0, byteCount := 0 }

/-- Fills up the byte being filled and tells the sink to pass on what it holds. -/
def finish : WriteM Unit := do
  flushBits
  let w ← get
  match w.sink.flushFailure with
  | some message => throw (.device message)
  | none => pure ()

end Writer

end RecordLayout
