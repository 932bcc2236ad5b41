import RecordLayout.Proofs.Bits.Skipping

/-!
# What a writer adds

An operation of a writer adds bits behind those it has written, to its sink or to the byte being
filled. `Adds` says this of two states of the writer, and `Writes` adds that the bits are counted;
`reset` is the only operation that adds bits without counting them.
-/

namespace RecordLayout

namespace Writer

/-- The bits that a writer has behind it. -/
def written (order : BitOrder) (w : Writer) : List Bool :=
  order.stream w.sink.received.toList ++
    (Bits.ofNat (order.logical w.current).toNat 8).take w.used

/-- Bits written since the last reset. -/
def position (w : Writer) : Nat := 8 * w.byteCount + w.used

/-- What holds of a writer that is in use, in its bit order, if its sink takes everything: the part
of the byte that is not filled yet is zero. -/
structure Ready (order : BitOrder) (w : Writer) : Prop where
  used_lt : w.used < 8
  unfilled : ∀ i, w.used ≤ i → i < 8 → (order.logical w.current).toNat.testBit i = false
  limit : w.sink.limit = none
  flush : w.sink.flushFailure = none

theorem ready_ofSink {sink : Sink} (hlimit : sink.limit = none)
    (hflush : sink.flushFailure = none) (order : BitOrder) : (ofSink sink).Ready order :=
  ⟨by simp [ofSink], fun i _ _ => by simp [ofSink], hlimit, hflush⟩

@[simp] theorem written_ofSink (sink : Sink) (order : BitOrder) :
    (ofSink sink).written order = order.stream sink.received.toList := by
  simp [written, ofSink]

/-- The byte counter of expressions, from the bits written. -/
theorem Ready.streamCount_eq {order : BitOrder} {w : Writer} (h : w.Ready order) :
    w.streamCount = (w.position + 7) / 8 := by
  have := h.used_lt
  simp only [streamCount, position]
  split <;> omega

/-- What has been written is the bytes that went to the sink and the bits of the last one. -/
theorem Ready.length_written {order : BitOrder} {w : Writer} (h : w.Ready order) :
    (w.written order).length = 8 * w.sink.received.size + w.used := by
  have := h.used_lt
  simp only [written, List.length_append, BitOrder.length_stream, List.length_take,
    Bits.length_ofNat, Array.length_toList]
  omega

/-- The second state is the first one with bits added. -/
structure Adds (order : BitOrder) (bits : List Bool) (w w' : Writer) : Prop where
  written : w'.written order = w.written order ++ bits
  ready : w'.Ready order

/-- The same with the bits counted. -/
structure Writes (order : BitOrder) (bits : List Bool) (w w' : Writer) : Prop
    extends Adds order bits w w' where
  position : w'.position = w.position + bits.length

variable {order : BitOrder} {w w₁ w₂ w' : Writer} {bits bits' : List Bool}

theorem Adds.trans (h₁ : Adds order bits w w₁) (h₂ : Adds order bits' w₁ w₂) :
    Adds order (bits ++ bits') w w₂ :=
  ⟨by rw [h₂.written, h₁.written, List.append_assoc], h₂.ready⟩

theorem Writes.trans (h₁ : Writes order bits w w₁) (h₂ : Writes order bits' w₁ w₂) :
    Writes order (bits ++ bits') w w₂ :=
  ⟨h₁.toAdds.trans h₂.toAdds, by
    rw [h₂.position, h₁.position, List.length_append, Nat.add_assoc]⟩

theorem Writes.refl (h : w.Ready order) : Writes order [] w w :=
  ⟨⟨(List.append_nil _).symm, h⟩, rfl⟩

/-- The bit counter plays no part. -/
theorem Writes.counting (h : Writes order bits w w') (count : Nat) :
    Writes order bits w { w' with bitCount := count } :=
  ⟨⟨h.written, ⟨h.ready.used_lt, h.ready.unfilled, h.ready.limit, h.ready.flush⟩⟩, h.position⟩

/-! ## Bits -/

/-- The byte being filled with one more bit. -/
def filled (order : BitOrder) (b : Bool) (w : Writer) : UInt8 :=
  if b then w.current ||| order.logical ((1 : UInt8) <<< UInt8.ofNat w.used) else w.current

theorem testBit_one_shiftLeft {i j : Nat} (hi : i < 8) (hj : j < 8) :
    ((1 : UInt8) <<< UInt8.ofNat i).toNat.testBit j = decide (j = i) := by
  have : ∀ i < 8, ∀ j < 8,
      ((1 : UInt8) <<< UInt8.ofNat i).toNat.testBit j = decide (j = i) := by decide
  exact this i hi j hj

/-- Filling a place sets it to the bit and leaves the others. -/
theorem testBit_filled (hused : w.used < 8) (b : Bool) {i : Nat} (hi : i < 8) :
    (order.logical (filled order b w)).toNat.testBit i =
      ((order.logical w.current).toNat.testBit i || (b && decide (i = w.used))) := by
  cases b with
  | false => simp [filled]
  | true =>
    have hplace : order.place i < 8 := BitOrder.place_lt hi
    rw [filled, if_pos rfl, BitOrder.testBit_logical order _ hi, UInt8.toNat_or, Nat.testBit_or,
      BitOrder.testBit_logical order _ hplace, BitOrder.place_place hi,
      testBit_one_shiftLeft hused hi, BitOrder.testBit_logical order _ hi, Bool.true_and]

/-- The byte being filled has one bit more, and it is the new one. -/
theorem Ready.take_filled (h : w.Ready order) (b : Bool) :
    (Bits.ofNat (order.logical (filled order b w)).toNat 8).take (w.used + 1) =
      (Bits.ofNat (order.logical w.current).toNat 8).take w.used ++ [b] := by
  have hused := h.used_lt
  apply List.ext_getElem
  · simp only [List.length_take, List.length_append, Bits.length_ofNat, List.length_singleton]
    omega
  · intro i hi hi'
    have hlt : i < 8 := by
      simp only [List.length_take, Bits.length_ofNat] at hi
      omega
    have hle : i ≤ w.used := by
      simp only [List.length_take, Bits.length_ofNat] at hi
      omega
    rw [List.getElem_take, Bits.getElem_ofNat, testBit_filled hused b hlt]
    by_cases hlast : i = w.used
    · have hlen : ((Bits.ofNat (order.logical w.current).toNat 8).take w.used).length = i := by
        simp only [List.length_take, Bits.length_ofNat]
        omega
      rw [List.getElem_append_right (by omega), h.unfilled i (by omega) hlt]
      simp [hlast]
    · rw [List.getElem_append_left (by simp only [List.length_take, Bits.length_ofNat]; omega),
        List.getElem_take, Bits.getElem_ofNat]
      simp [hlast]

theorem emit_of_ready (h : w.sink.limit = none) (b : UInt8) :
    emit b w = .ok () { w with
      sink := { w.sink with received := w.sink.received.push b }, byteCount := w.byteCount + 1 } := by
  simp only [emit, Sink.put, h]

/-- A bit is written, whether or not it completes the byte. -/
theorem putBit_of_ready (h : w.Ready order) (b : Bool) :
    ∃ w', putBit order b w = .ok () w' ∧ Writes order [b] w w' := by
  have hused := h.used_lt
  have htake := h.take_filled b
  by_cases hlast : w.used < 7
  · refine ⟨{ w with current := filled order b w, used := w.used + 1 }, ?_, ⟨⟨?_, ⟨?_, ?_, h.limit,
      h.flush⟩⟩, ?_⟩⟩
    · simp only [putBit, bind_of_ok (get_apply w), hlast, if_true]
      rfl
    · simp only [written, List.append_assoc]
      rw [htake]
    · show w.used + 1 < 8
      omega
    · intro i hi hi'
      have hlow : w.used + 1 ≤ i := hi
      simp only [testBit_filled hused b hi', h.unfilled i (by omega) hi']
      simp [show i ≠ w.used by omega]
    · simp only [position, List.length_singleton]
      omega
  · refine ⟨{ w with
      sink := { w.sink with received := w.sink.received.push (filled order b w) }
      current := 0
      used := 0
      byteCount := w.byteCount + 1 }, ?_, ⟨⟨?_, ⟨Nat.zero_lt_succ 7, ?_, h.limit, h.flush⟩⟩, ?_⟩⟩
    · simp only [putBit, bind_of_ok (get_apply w), hlast, if_false]
      exact (bind_of_ok (set_apply w _)).trans
        (emit_of_ready (w := { w with current := 0, used := 0 }) h.limit _)
    · simp only [show w.used + 1 = 8 by omega] at htake
      rw [List.take_of_length_le (Nat.le_of_eq (Bits.length_ofNat _ 8))] at htake
      simp only [written, Array.toList_push, BitOrder.stream_append, BitOrder.stream_cons,
        BitOrder.stream_nil, List.append_nil, List.take_zero, List.append_assoc]
      exact congrArg _ htake
    · intro i _ _
      simp
    · simp only [position, List.length_singleton]
      omega

theorem putBits_of_ready (h : w.Ready order) (bits : List Bool) :
    ∃ w', putBits order bits w = .ok () w' ∧ Writes order bits w w' := by
  induction bits generalizing w with
  | nil => exact ⟨w, rfl, Writes.refl h⟩
  | cons b bits ih =>
    obtain ⟨w₁, hput, hwrites⟩ := putBit_of_ready h b
    obtain ⟨w₂, hputs, hwrites'⟩ := ih hwrites.ready
    refine ⟨w₂, ?_, hwrites.trans hwrites'⟩
    rw [putBits, bind_of_ok hput, hputs]

theorem writeBits_of_ready (h : w.Ready order) (value : UInt64) {width : Nat} (hpos : 0 < width)
    (hle : width ≤ 64) :
    ∃ w', writeBits value width order w = .ok () w' ∧
      Writes order (Bits.ofNat value.toNat width) w w' := by
  obtain ⟨w₁, hput, hwrites⟩ := putBits_of_ready h (Bits.ofNat value.toNat width)
  refine ⟨{ w₁ with bitCount := w₁.bitCount + width }, ?_, hwrites.counting _⟩
  have hwidth : ¬ (width = 0 ∨ 64 < width) := by omega
  simp only [writeBits, hwidth, if_false]
  exact (bind_of_ok hput).trans rfl

/-! ## Bytes -/

/-- A byte is written as its eight bits, wherever it begins. -/
theorem writeByte_of_ready (h : w.Ready order) (b : UInt8) :
    ∃ w', writeByte b order w = .ok () w' ∧ Writes order (Bits.ofNat b.toNat 8) w w' := by
  by_cases hused : w.used = 0
  · refine ⟨{ w with
      sink := { w.sink with received := w.sink.received.push (order.logical b) }
      byteCount := w.byteCount + 1
      bitCount := w.bitCount + 8 }, ?_, ⟨⟨?_, ⟨h.used_lt, h.unfilled, h.limit, h.flush⟩⟩, ?_⟩⟩
    · simp only [writeByte, bind_of_ok (get_apply w)]
      rw [if_pos hused]
      exact (bind_of_ok (emit_of_ready h.limit _)).trans rfl
    · simp [written, hused, BitOrder.logical_logical]
    · simp only [position, Bits.length_ofNat]
      omega
  · obtain ⟨w', hwrite, hwrites⟩ :=
      writeBits_of_ready h b.toUInt64 (show 0 < 8 by decide) (by decide)
    refine ⟨w', ?_, ?_⟩
    · simp only [writeByte, bind_of_ok (get_apply w), hused, if_false, hwrite]
    · rwa [UInt8.toNat_toUInt64] at hwrites

theorem writeBytes_of_ready (h : w.Ready order) (bs : List UInt8) :
    ∃ w', writeBytes bs order w = .ok () w' ∧ Writes order (Bits.ofBytes bs) w w' := by
  induction bs generalizing w with
  | nil => exact ⟨w, rfl, Writes.refl h⟩
  | cons b bs ih =>
    obtain ⟨w₁, hwrite, hwrites⟩ := writeByte_of_ready h b
    obtain ⟨w₂, hrest, hwrites'⟩ := ih hwrites.ready
    refine ⟨w₂, ?_, hwrites.trans hwrites'⟩
    rw [writeBytes, bind_of_ok hwrite, hrest]

/-! ## Directives -/

/-- Zero bytes are the same in every bit order. -/
theorem writeByte_zero (order order' : BitOrder) :
    writeByte 0 order = writeByte 0 order' := by
  have hbits : ∀ n, putBits order (List.replicate n false) =
      putBits order' (List.replicate n false) := by
    intro n
    induction n with
    | zero => rfl
    | succ n ih => rw [List.replicate_succ, putBits, putBits, ih]; rfl
  have hzero : (0 : UInt8).toUInt64.toNat = 0 := rfl
  unfold writeByte writeBits
  simp only [BitOrder.logical_zero, hzero, Bits.ofNat_zero_left, hbits]

/-- Skipped bytes are zero bits. -/
theorem skipBytes_of_ready (h : w.Ready order) (count : Nat) :
    ∃ w', skipBytes count w = .ok () w' ∧ Writes order (List.replicate (8 * count) false) w w' := by
  induction count generalizing w with
  | zero => exact ⟨w, rfl, Writes.refl h⟩
  | succ count ih =>
    obtain ⟨w₁, hwrite, hwrites⟩ := writeByte_of_ready h 0
    obtain ⟨w₂, hrest, hwrites'⟩ := ih hwrites.ready
    refine ⟨w₂, ?_, ?_⟩
    · rw [skipBytes, writeByte_zero .lsb0 order, bind_of_ok hwrite, hrest]
    · have hbits := hwrites.trans hwrites'
      rwa [show (0 : UInt8).toNat = 0 from rfl, Bits.ofNat_zero_left,
        List.replicate_append_replicate,
        Nat.add_comm, ← Nat.mul_succ] at hbits

/-- A byte that is not begun needs no bits to be full. -/
theorem Ready.toByte_eq (h : w.Ready order) :
    Bits.toByte w.position = if 0 < w.used then 8 - w.used else 0 := by
  have := h.used_lt
  simp only [Bits.toByte, position]
  split <;> omega

/-- A flush fills up the byte with the zeros it holds already. -/
theorem flushBits_of_ready (h : w.Ready order) :
    ∃ w', flushBits w = .ok () w' ∧
      Adds order (List.replicate (Bits.toByte w.position) false) w w' ∧
      w'.used = 0 ∧ 8 * w'.byteCount = w.position + Bits.toByte w.position ∧
      w'.bitCount = w.bitCount := by
  have hlt := h.used_lt
  rw [h.toByte_eq]
  by_cases hused : 0 < w.used
  · refine ⟨{ w with
      sink := { w.sink with received := w.sink.received.push w.current }
      current := 0
      used := 0
      byteCount := w.byteCount + 1 }, ?_, ⟨?_, ⟨Nat.zero_lt_succ 7, ?_, h.limit, h.flush⟩⟩, rfl, ?_,
      rfl⟩
    · simp only [flushBits, bind_of_ok (get_apply w), hused, if_true]
      exact (bind_of_ok (set_apply w _)).trans
        (emit_of_ready (w := { w with current := 0, used := 0 }) h.limit _)
    · have hrest : (Bits.ofNat (order.logical w.current).toNat 8).drop w.used =
          List.replicate (8 - w.used) false := by
        apply List.ext_getElem (by simp)
        intro i hi hi'
        rw [List.getElem_drop, Bits.getElem_ofNat, List.getElem_replicate]
        rw [List.length_replicate] at hi'
        exact h.unfilled _ (by omega) (by omega)
      simp only [written, Array.toList_push, BitOrder.stream_append, BitOrder.stream_cons,
        BitOrder.stream_nil, List.append_nil, List.take_zero, List.append_assoc, hused, if_true]
      rw [← hrest, List.take_append_drop]
    · intro i _ _
      simp
    · simp only [position, hused, if_true]
      omega
  · have hzero : w.used = 0 := by omega
    refine ⟨w, ?_, ⟨?_, h⟩, hzero, ?_, rfl⟩
    · simp only [flushBits, bind_of_ok (get_apply w), hused, if_false]
      rfl
    · simp [hused]
    · simp [position, hzero]

/-- A byte is left by filling it with zero bits, and then the bytes are whole. -/
theorem leaveByte_of_ready (h : w.Ready order) :
    ∃ w', leaveByte w = .ok () w' ∧
      Writes order (List.replicate (Bits.toByte w.position) false) w w' ∧
      8 * w'.byteCount = w.position + Bits.toByte w.position := by
  by_cases hused : 0 < w.used
  · obtain ⟨w', hflush, hadds, hzero, hcount, -⟩ := flushBits_of_ready
      (w := { w with bitCount := w.bitCount + (8 - w.used) })
      ⟨h.used_lt, h.unfilled, h.limit, h.flush⟩
    refine ⟨w', ?_, ⟨⟨hadds.written, hadds.ready⟩, ?_⟩, hcount⟩
    · simp only [leaveByte, bind_of_ok (get_apply w), hused, if_true]
      exact (bind_of_ok (set_apply w _)).trans hflush
    · rw [List.length_replicate, position, hzero]
      exact hcount
  · have hbits : Bits.toByte w.position = 0 := by simp [h.toByte_eq, hused]
    rw [hbits]
    refine ⟨w, ?_, Writes.refl h, ?_⟩
    · simp only [leaveByte, bind_of_ok (get_apply w), hused, if_false]
      rfl
    · simp only [position]
      omega

/-- An alignment writes zero bits up to the next multiple. -/
theorem align_of_ready (h : w.Ready order) (n : Nat) :
    ∃ w', align n w = .ok () w' ∧
      Writes order (List.replicate (Bits.toMultiple w.position n) false) w w' := by
  obtain ⟨w₁, hleave, hwrites, hcount⟩ := leaveByte_of_ready h
  obtain ⟨w₂, hskip, hwrites'⟩ :=
    skipBytes_of_ready hwrites.ready ((n - w₁.byteCount % n) % n)
  have hbytes : w₁.byteCount = (w.position + 7) / 8 := by
    simp only [Bits.toByte] at hcount
    omega
  refine ⟨w₂, ?_, ?_⟩
  · rw [align, bind_of_ok hleave]
    simp only [bind_of_ok (get_apply w₁)]
    exact hskip
  · have hbits := hwrites.trans hwrites'
    rwa [List.replicate_append_replicate, hbytes] at hbits

/-- A reset fills the byte, writes it, and counts from zero again. -/
theorem reset_of_ready (h : w.Ready order) :
    ∃ w', reset w = .ok () w' ∧
      Adds order (List.replicate (Bits.toByte w.position) false) w w' ∧ w'.position = 0 := by
  obtain ⟨w₁, hflush, hadds, hzero, -, -⟩ := flushBits_of_ready h
  refine ⟨{ w₁ with bitCount := 0, byteCount := 0 }, ?_, ⟨hadds.written,
    ⟨hadds.ready.used_lt, hadds.ready.unfilled, hadds.ready.limit, hadds.ready.flush⟩⟩, ?_⟩
  · exact (bind_of_ok hflush).trans rfl
  · simp [position, hzero]

/-- At the end the bits written fill whole bytes, with zeros behind the last of them. -/
theorem finish_of_ready (h : w.Ready order) :
    ∃ w', finish w = .ok () w' ∧
      order.stream w'.sink.received.toList =
        w.written order ++ List.replicate (Bits.toByte (w.written order).length) false := by
  obtain ⟨w₁, hflush, hadds, hzero, -, -⟩ := flushBits_of_ready h
  have hbits : Bits.toByte (w.written order).length = Bits.toByte w.position := by
    rw [h.length_written, h.toByte_eq]
    have := h.used_lt
    simp only [Bits.toByte]
    split <;> omega
  refine ⟨w₁, ?_, ?_⟩
  · rw [finish, bind_of_ok hflush]
    simp only [bind_of_ok (get_apply w₁), hadds.ready.flush]
    rfl
  · have hwritten := hadds.written
    rw [written, hzero, List.take_zero, List.append_nil] at hwritten
    rw [hwritten, hbits]

end Writer

end RecordLayout
