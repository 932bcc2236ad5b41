import RecordLayout.Proofs.Bits.Mirror

/-!
# Mirrored writers

What is written in one bit order gives the bytes that are written in the other, each with its bits
reversed. The byte being filled is mirrored as well: a bit that is set at a place of the one byte is
set at the opposite place of the other.
-/

namespace RecordLayout

/-- A byte is put together bit by bit, before or after it is reversed. -/
theorem reverseBits_or (a b : UInt8) : reverseBits (a ||| b) = reverseBits a ||| reverseBits b := by
  apply Bits.ofNat_uint8_inj
  apply List.ext_getElem (by simp)
  intro i hi _
  have h : i < 8 := by simpa using hi
  have hlogical := fun c => BitOrder.testBit_logical .msb0 c h
  simp only [BitOrder.logical] at hlogical
  rw [Bits.getElem_ofNat, Bits.getElem_ofNat, UInt8.toNat_or, Nat.testBit_or, hlogical, hlogical,
    hlogical, UInt8.toNat_or, Nat.testBit_or]

/-- The sink that has received the mirrored bytes. -/
def Sink.mirror (s : Sink) : Sink := { s with received := s.received.map reverseBits }

theorem Sink.mirror_empty : Sink.empty.mirror = Sink.empty := by
  simp [mirror, empty]

namespace Writer

/-- The writer that has written the mirrored bytes. -/
def mirror (w : Writer) : Writer :=
  { w with sink := w.sink.mirror, current := reverseBits w.current }

theorem mirror_ofSink (sink : Sink) : (ofSink sink).mirror = ofSink sink.mirror := by
  unfold mirror ofSink
  rw [reverseBits_zero]

theorem used_mirror (w : Writer) : w.mirror.used = w.used := rfl

/-- The byte that goes to the sink is the mirror of the other one. -/
theorem mirrors_emit (b : UInt8) : Mirrors mirror (emit b) (emit (reverseBits b)) := by
  rintro ⟨⟨received, limit, flushFailure⟩, current, used, bitCount, byteCount⟩
  unfold emit Sink.put
  cases limit with
  | none => simp [mirror, Sink.mirror, onState]
  | some limit =>
    rcases limit with ⟨limit, message⟩
    by_cases hroom : received.size < limit
    · simp [mirror, Sink.mirror, onState, hroom]
    · simp [mirror, Sink.mirror, onState, hroom]

/-- The byte being filled is given to the sink and another begun. -/
theorem mirrors_close {w w' : Writer} (h : w' = w.mirror) (b : UInt8) :
    emit (reverseBits b) { w' with current := 0, used := 0 } =
      onState mirror (emit b { w with current := 0, used := 0 }) := by
  subst h
  have hclosed : { w.mirror with current := 0, used := 0 } =
      ({ w with current := 0, used := 0 } : Writer).mirror := by
    unfold mirror
    rw [reverseBits_zero]
  rw [hclosed]
  exact mirrors_emit b _

theorem mirrors_flushBits : Mirrors mirror flushBits flushBits := by
  refine Mirrors.get_bind fun w => ?_
  by_cases hused : 0 < w.used
  · rw [used_mirror, if_pos hused, if_pos hused]
    exact mirrors_close rfl w.current
  · rw [used_mirror, if_neg hused, if_neg hused]
    rfl

/-- The next bit fills places that mirror each other. -/
theorem filled_mirror (b : Bool) (w : Writer) :
    filled .lsb0 b w.mirror = reverseBits (filled .msb0 b w) := by
  cases b with
  | false => rfl
  | true =>
    have hplace (bit : UInt8) :
        BitOrder.lsb0.logical bit = reverseBits (BitOrder.msb0.logical bit) :=
      (reverseBits_reverseBits bit).symm
    unfold filled
    rw [if_pos rfl, if_pos rfl, reverseBits_or, hplace]
    rfl

theorem mirrors_putBit (b : Bool) : Mirrors mirror (putBit .msb0 b) (putBit .lsb0 b) := by
  refine Mirrors.get_bind fun w => ?_
  have hfilled := filled_mirror b w
  simp only [filled] at hfilled
  rw [hfilled]
  by_cases hused : w.used < 7
  · rw [used_mirror, if_pos hused, if_pos hused]
    rfl
  · rw [used_mirror, if_neg hused, if_neg hused]
    exact mirrors_close rfl _

theorem mirrors_putBits (bits : List Bool) :
    Mirrors mirror (putBits .msb0 bits) (putBits .lsb0 bits) := by
  induction bits with
  | nil => exact Mirrors.pure _
  | cons b bits ih => exact Mirrors.bind (mirrors_putBit b) fun _ => ih

theorem mirrors_writeBits (value : UInt64) (width : Nat) :
    Mirrors mirror (writeBits value width .msb0) (writeBits value width .lsb0) := by
  unfold writeBits
  split
  · exact Mirrors.throw _
  · exact Mirrors.bind (mirrors_putBits _) fun _ => Mirrors.modify fun _ => rfl

/-- A byte that is not spread is reversed once, by the order it is written in. -/
theorem mirrors_writeByte (b : UInt8) :
    Mirrors mirror (writeByte b .msb0) (writeByte b .lsb0) := by
  refine Mirrors.get_bind fun w => ?_
  by_cases hused : w.used = 0
  · rw [used_mirror, if_pos hused, if_pos hused]
    have hlogical : BitOrder.lsb0.logical b = reverseBits (BitOrder.msb0.logical b) :=
      (reverseBits_reverseBits b).symm
    rw [hlogical]
    refine Mirrors.bind (mirrors_emit _) (fun _ => Mirrors.modify ?_) w
    exact fun _ => rfl
  · rw [used_mirror, if_neg hused, if_neg hused]
    exact mirrors_writeBits b.toUInt64 8 w

theorem mirrors_writeBytes (bs : List UInt8) :
    Mirrors mirror (writeBytes bs .msb0) (writeBytes bs .lsb0) := by
  induction bs with
  | nil => exact Mirrors.pure _
  | cons b bs ih => exact Mirrors.bind (mirrors_writeByte b) fun _ => ih

theorem mirrors_writeNumber (n size : Nat) (bytes : ByteOrder) :
    Mirrors mirror (writeNumber n size bytes .msb0) (writeNumber n size bytes .lsb0) :=
  mirrors_writeBytes _

/-- The length and the text are bytes, and nothing else of a text has an order. -/
theorem mirrors_writeText (text : Option String) :
    Mirrors mirror (writeText text .msb0) (writeText text .lsb0) := by
  cases text with
  | none => exact mirrors_writeByte _
  | some text =>
    unfold writeText
    dsimp only
    split
    · exact Mirrors.throw _
    · exact Mirrors.bind (mirrors_writeBytes _) fun _ => mirrors_writeBytes _

theorem mirrors_skipBytes (count : Nat) : Mirrors mirror (skipBytes count) (skipBytes count) := by
  induction count with
  | zero => exact Mirrors.pure _
  | succ count ih =>
    refine Mirrors.bind ?_ fun _ => ih
    have hzero := mirrors_writeByte 0
    rwa [writeByte_zero .msb0 .lsb0] at hzero

/-- The bits that fill up a byte are zero in both orders. -/
theorem mirrors_leaveByte : Mirrors mirror leaveByte leaveByte := by
  refine Mirrors.get_bind fun w => ?_
  by_cases hused : 0 < w.used
  · rw [used_mirror, if_pos hused, if_pos hused]
    exact mirrors_flushBits { w with bitCount := w.bitCount + (8 - w.used) }
  · rw [used_mirror, if_neg hused, if_neg hused]
    rfl

theorem mirrors_align (n : Nat) : Mirrors mirror (align n) (align n) :=
  Mirrors.bind mirrors_leaveByte fun _ => Mirrors.get_bind fun w => mirrors_skipBytes _ w

theorem mirrors_reset : Mirrors mirror reset reset :=
  Mirrors.bind mirrors_flushBits fun _ => Mirrors.modify fun _ => rfl

/-- The last byte is sent with zero bits behind, which are its mirror's too. -/
theorem mirrors_finish : Mirrors mirror finish finish := by
  refine Mirrors.bind mirrors_flushBits fun _ => Mirrors.get_bind fun w => ?_
  have hfailure : w.mirror.sink.flushFailure = w.sink.flushFailure := rfl
  rw [hfailure]
  cases w.sink.flushFailure <;> rfl

end Writer

open Writer in
/-- A custom type that writes is told the order only through the operations it asks for. -/
theorem WriteProgram.mirrors_run (program : WriteProgram) :
    Mirrors mirror (program.run .msb0) (program.run .lsb0) := by
  induction program with
  | done result => exact Mirrors.settle result
  | bits value width next ih => exact Mirrors.bind (mirrors_writeBits _ _).outcome ih
  | byte b next ih => exact Mirrors.bind (mirrors_writeByte b).outcome ih

end RecordLayout
