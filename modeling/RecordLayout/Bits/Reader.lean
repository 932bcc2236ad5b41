import RecordLayout.Bits.Order
import RecordLayout.Bits.Source
import RecordLayout.Error

/-!
# Reading bits

A reader takes bytes from a source, one at a time and one byte of lookahead at most, and hands out
their bits. It counts the bits it handed out and the bytes it took, both since the last reset, and
the bytes it took over its whole life. Everything it reads is made of single bits, except that a
byte which begins at a byte boundary is taken whole, and a run of such bytes in one request.

An operation that fails keeps what it consumed: a number of bits that the stream ends in has taken
the bits there were, without counting them as handed out.
-/

namespace RecordLayout

/-- A source with a partly read byte. -/
structure Reader where
  source : Source
  /-- A byte taken from the source to see whether there is one, and not yet fetched. -/
  lookahead : Option UInt8
  /-- The byte being read. -/
  current : UInt8
  /-- How many bits of it are read; from eight on there is no byte being read. -/
  used : Nat
  /-- Bits handed out since the last reset. -/
  bitCount : Nat
  /-- Bytes fetched since the last reset. -/
  byteCount : Nat
  /-- Bytes fetched at all. -/
  fetched : Nat

/-- An operation of a reader. -/
abbrev ReadM := EStateM Error Reader

namespace Reader

/-- A reader at the front of a source. -/
def ofSource (source : Source) : Reader := ⟨source, none, 0, 8, 0, 0, 0⟩

/-- Bits left of the byte being read. -/
def buffered (r : Reader) : Nat := 8 - r.used

/-- Bits that can still be read. -/
def remaining (r : Reader) : Nat :=
  8 * (r.source.size + r.lookahead.toList.length) + r.buffered

/-- The next byte of the stream, if there is one. -/
def pull : ReadM (Option UInt8) := fun r =>
  match r.lookahead with
  | some b => .ok (some b) { r with lookahead := none }
  | none =>
    match r.source.next with
    | .byte b rest => .ok (some b) { r with source := rest }
    | .ended => .ok none { r with source := ⟨[], r.source.failure⟩ }
    | .failed message => .error (.device message) { r with source := ⟨[], r.source.failure⟩ }

/-- Looks whether the stream has another byte. -/
def hasByte : ReadM Bool := do
  let r ← get
  match r.lookahead with
  | some _ => pure true
  | none =>
    let next ← pull
    modify fun r => { r with lookahead := next }
    pure next.isSome

/-- The next bit of the stream, if there is one. -/
def nextBit (order : BitOrder) : ReadM (Option Bool) := do
  let r ← get
  if r.used < 8 then
    set { r with used := r.used + 1 }
    pure (some (order.bit r.current r.used))
  else
    match ← pull with
    | none => pure none
    | some b =>
      modify fun r =>
        { r with current := b, used := 1, byteCount := r.byteCount + 1, fetched := r.fetched + 1 }
      pure (some (order.bit b 0))

/-- The last `count` bits of a number of `width` bits. -/
def takeBits (order : BitOrder) (width : Nat) : (count : Nat) → ReadM (List Bool)
  | 0 => pure []
  | count + 1 => do
    match ← nextBit order with
    | none => throw (.bitsMissing width (width - (count + 1)))
    | some b =>
      let more ← takeBits order width count
      pure (b :: more)

/-- A number of 1 to 64 bits, the least significant first. -/
def readBits (width : Nat) (order : BitOrder) : ReadM UInt64 := do
  if width = 0 ∨ 64 < width then throw (.widthOutOfRange width)
  let bits ← takeBits order width width
  modify fun r => { r with bitCount := r.bitCount + width }
  pure (.ofNat (Bits.toNat bits))

/-- Eight bits. -/
def readByte (order : BitOrder) : ReadM UInt8 := do
  let r ← get
  if r.used < 8 then
    let n ← readBits 8 order
    pure n.toUInt8
  else
    match ← pull with
    | none => throw (.bitsMissing 8 0)
    | some b =>
      modify fun r =>
        { r with
          byteCount := r.byteCount + 1, fetched := r.fetched + 1, bitCount := r.bitCount + 8 }
      pure (order.logical b)

/-- Bytes read one by one. -/
def readEach (order : BitOrder) : (count : Nat) → ReadM (List UInt8)
  | 0 => pure []
  | count + 1 => do
    let b ← readByte order
    let more ← readEach order count
    pure (b :: more)

/-- Whole bytes from a byte boundary, all in one request. If the source fails, what it served is
gone and counted nowhere; if it ends, what it served is counted. -/
def readRun (count : Nat) (order : BitOrder) : ReadM (List UInt8) := fun r =>
  let first := if count = 0 then [] else r.lookahead.toList
  let (served, events) := Source.takeUpTo (count - first.length) r.source.events
  let found := first ++ served
  let r := { r with
    lookahead := if count = 0 then r.lookahead else none, source := ⟨events, r.source.failure⟩ }
  let counted := { r with
    byteCount := r.byteCount + found.length, fetched := r.fetched + found.length,
    bitCount := r.bitCount + 8 * found.length }
  if found.length = count then .ok (found.map order.logical) counted
  else
    match r.source.failure with
    | some message => .error (.device message) r
    | none => .error (.bytesMissing count found.length) counted

/-- Bytes in a row. -/
def readBytes (count : Nat) (order : BitOrder) : ReadM (List UInt8) := do
  let r ← get
  if r.used < 8 then readEach order count else readRun count order

/-- A number of whole bytes. -/
def readNumber (size : Nat) (bytes : ByteOrder) (order : BitOrder) : ReadM Nat := do
  let found ← readEach order size
  pure (bytes.number found)

/-- The length of a text after its first byte. -/
def readTextLength (leading : UInt8) (order : BitOrder) : ReadM Nat := do
  if leading < 0x80 then pure leading.toNat
  else if 0x81 ≤ leading ∧ leading ≤ 0x84 then
    let found ← readEach order (leading.toNat - 0x80)
    let length := ByteOrder.big.number found
    if length < 0x80 ∨ found.head? = some 0 then throw (.longTextLength length)
    pure length
  else throw (.textPrefix leading)

/-- A text behind its length, or the mark that there is none. A length below 128 is one byte; a
longer one stands in as few bytes as hold it, behind a byte that says how many. -/
def readText (order : BitOrder) : ReadM (Option String) := do
  let leading ← readByte order
  if leading = 0xFF then pure none
  else
    let length ← readTextLength leading order
    let found ← readBytes length order
    match Text.Utf8.decode found with
    | .ok text => pure (some text)
    | .error fault => throw (.notUtf8 fault)

/-- Reads bytes and forgets them. -/
def skipBytes : (count : Nat) → ReadM Unit
  | 0 => pure ()
  | count + 1 => do
    let _ ← readByte .lsb0
    skipBytes count

/-- Leaves the rest of a partly read byte; its bits count as handed out. -/
def leaveByte : ReadM Unit :=
  modify fun r => { r with bitCount := r.bitCount + r.buffered, used := 8 }

/-- Leaves a partly read byte and skips to a multiple of `n` bytes. -/
def align (n : Nat) : ReadM Unit := do
  leaveByte
  let r ← get
  skipBytes ((n - r.byteCount % n) % n)

/-- Leaves a partly read byte and counts from zero again. -/
def reset : ReadM Unit :=
  modify fun r => { r with used := 8, bitCount := 0, byteCount := 0 }

/-- No bit can be read any more. -/
def isExhausted : ReadM Bool := do
  let r ← get
  if r.used < 8 then pure false
  else
    let more ← hasByte
    pure (!more)

/-- An element of `width` bits cannot begin: the stream has no further byte and fewer bits than that
are left of the last one. These must be the zeros that fill up a last byte. -/
def atEndFor (width : Nat) (order : BitOrder) : ReadM Bool := do
  if ← hasByte then pure false
  else
    let r ← get
    if width ≤ r.buffered then pure false
    else if 0 < r.buffered ∧ (order.logical r.current).toNat / 2 ^ r.used ≠ 0 then
      throw (.paddingNotZero r.buffered)
    else pure true

end Reader

end RecordLayout
