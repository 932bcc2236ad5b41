import RecordLayout.Proofs.Bits.Counting

/-!
# A reader behind a writer

A sequence of writing operations has a counterpart of reading operations, one for one. The orders of
the bits may change from one operation to the next, as long as no byte is shared by operations of
different orders: then every byte has an order of its own, in which it is written and read. Bytes
that are skipped are zero, so that these have no part in it.

The bytes that a writer gives to its sink stay as they are, and of the byte being filled the bits
stay that are filled, seen in the order of that byte. So what the writer has behind it at any time
is at the front of what there is in the end, and a reader which has come as far finds ahead of it
what the next operation wrote.
-/

namespace RecordLayout

/-- An operation of a writer, which a reader has a counterpart of. -/
inductive StreamOp where
  | bits (value : UInt64) (width : Nat) (order : BitOrder)
  | byte (b : UInt8) (order : BitOrder)
  | bytes (bs : List UInt8) (order : BitOrder)
  /-- A number of whole bytes. -/
  | number (n size : Nat) (endian : ByteOrder) (order : BitOrder)
  | text (t : Option String) (order : BitOrder)
  | align (n : Nat)
  | skip (count : Nat)
  | reset

namespace StreamOp

/-- What a reading operation gives. -/
inductive Answer where
  | number (n : Nat)
  | byte (b : UInt8)
  | bytes (bs : List UInt8)
  | text (t : Option String)
  | nothing

/-- The writing operation. -/
def write : StreamOp → WriteM Unit
  | bits value width order => Writer.writeBits value width order
  | byte b order => Writer.writeByte b order
  | bytes bs order => Writer.writeBytes bs order
  | number n size endian order => Writer.writeNumber n size endian order
  | text t order => Writer.writeText t order
  | align n => Writer.align n
  | skip count => Writer.skipBytes count
  | reset => Writer.reset

/-- The reading operation. -/
def read : StreamOp → ReadM Answer
  | bits _ width order => (fun n => .number n.toNat) <$> Reader.readBits width order
  | byte _ order => .byte <$> Reader.readByte order
  | bytes bs order => .bytes <$> Reader.readBytes bs.length order
  | number _ size endian order => .number <$> Reader.readNumber size endian order
  | text _ order => .text <$> Reader.readText order
  | align n => (fun _ => .nothing) <$> Reader.align n
  | skip count => (fun _ => .nothing) <$> Reader.skipBytes count
  | reset => (fun _ => .nothing) <$> Reader.reset

/-- The value that was written: of a number of bits, only the lowest ones. -/
def answer : StreamOp → Answer
  | bits value width _ => .number (value.toNat % 2 ^ width)
  | byte b _ => .byte b
  | bytes bs _ => .bytes bs
  | number n _ _ _ => .number n
  | text t _ => .text t
  | align _ | skip _ | reset => .nothing

/-- The operation is one that can be carried out. -/
def Valid : StreamOp → Prop
  | bits _ width _ => 1 ≤ width ∧ width ≤ 64
  | number n size _ _ => n < 256 ^ size
  | text t _ => Writer.TextFits t
  | align n => 1 ≤ n
  | _ => True

/-- The bit order of an operation that has one. -/
def order : StreamOp → Option BitOrder
  | bits _ _ order | byte _ order | bytes _ order | number _ _ _ order | text _ order => some order
  | align _ | skip _ | reset => none

/-- The bits that the operation puts into the stream at a position. -/
def content (position : Nat) : StreamOp → List Bool
  | bits value width _ => Bits.ofNat value.toNat width
  | byte b _ => Bits.ofNat b.toNat 8
  | bytes bs _ => Bits.ofBytes bs
  | number n size endian _ => Bits.ofBytes (endian.bytes n size)
  | text t _ => Bits.ofBytes (Writer.textBytes t)
  | align n => List.replicate (Bits.toMultiple position n) false
  | skip count => List.replicate (8 * count) false
  | reset => List.replicate (Bits.toByte position) false

/-- The position behind the operation, counted from the last reset. -/
def next (position : Nat) : StreamOp → Nat
  | reset => 0
  | op => position + (op.content position).length

/-- Carries out writing operations and gives the writer after each. -/
def writeAll : List StreamOp → WriteM (List Writer)
  | [] => pure []
  | op :: ops => do
    op.write
    let w ← get
    let more ← writeAll ops
    pure (w :: more)

/-- Carries out reading operations and gives what each reads and the reader after it. -/
def readAll : List StreamOp → ReadM (List (Answer × Reader))
  | [] => pure []
  | op :: ops => do
    let x ← op.read
    let r ← get
    let more ← readAll ops
    pure ((x, r) :: more)

/-- Bits that belong to one operation, which begin and stop at places of the stream. -/
structure Span where
  order : BitOrder
  start : Nat
  stop : Nat

/-- One of the bits is in the byte with this index. -/
def Span.Touches (span : Span) (byte : Nat) : Prop :=
  ∃ i, span.start ≤ i ∧ i < span.stop ∧ i / 8 = byte

/-- The bits of the operation, which begins at a place of the stream and at a position since the
last reset. -/
def span (offset position : Nat) (op : StreamOp) : Option Span :=
  op.order.map fun order => ⟨order, offset, offset + (op.content position).length⟩

/-- The bits of each operation that has a bit order. -/
def spans : (offset position : Nat) → List StreamOp → List Span
  | _, _, [] => []
  | offset, position, op :: ops =>
    (op.span offset position).toList ++
      spans (offset + (op.content position).length) (op.next position) ops

/-- Operations that share a byte of a fresh stream have one bit order. -/
def OneOrder (ops : List StreamOp) : Prop :=
  ∀ a ∈ spans 0 0 ops, ∀ b ∈ spans 0 0 ops, ∀ byte, a.Touches byte → b.Touches byte →
    a.order = b.order

/-- The bits are in bytes of their own order. -/
def Agrees (orders : Nat → BitOrder) (found : List Span) : Prop :=
  ∀ span ∈ found, ∀ byte, span.Touches byte → span.order = orders byte

/-- Every byte has an order. -/
theorem OneOrder.exists_orders {ops : List StreamOp} (h : OneOrder ops) :
    ∃ orders, Agrees orders (spans 0 0 ops) := by
  have hbyte (byte : Nat) : ∃ order, ∀ a ∈ spans 0 0 ops, a.Touches byte → a.order = order := by
    by_cases hsome : ∃ b ∈ spans 0 0 ops, b.Touches byte
    · obtain ⟨b, hb, htouches⟩ := hsome
      exact ⟨b.order, fun a ha htouches' => h a ha b hb byte htouches' htouches⟩
    · exact ⟨.lsb0, fun a ha htouches => absurd ⟨a, ha, htouches⟩ hsome⟩
  choose orders horders using hbyte
  exact ⟨orders, fun a ha byte => horders byte a ha⟩

/-! ## Single operations -/

variable {op : StreamOp} {w w' : Writer} {r : Reader} {order : BitOrder}

/-- A writing operation that is known by its bits. -/
theorem write_of_writes {m : WriteM Unit} {bits : List Bool} (hw : w.Tallied)
    (hkeeps : Keeps Writer.Tallied m)
    (h : ∃ w', m w = .ok () w' ∧ Writer.Writes order bits w w') :
    ∃ w', m w = .ok () w' ∧ Writer.Adds order bits w w' ∧
      w'.position = w.position + bits.length ∧ w'.Tallied := by
  obtain ⟨w', hrun, hwrites⟩ := h
  exact ⟨w', hrun, hwrites.toAdds, hwrites.position, hkeeps _ _ _ hw hrun⟩

/-- An operation adds its bits in the order of the byte being filled; one with an order of its own,
if it adds any, has to have that order. -/
theorem write_of_ready (hvalid : op.Valid) (hw : w.Tallied) (h : w.Ready order)
    (horder : op.content w.position ≠ [] → ∀ order', op.order = some order' → order' = order) :
    ∃ w', op.write w = .ok () w' ∧ Writer.Adds order (op.content w.position) w w' ∧
      w'.position = op.next w.position ∧ w'.Tallied := by
  -- No bytes have no order, so that of the operation matters only if there are some.
  have hbytes (bs : List UInt8) (order' : BitOrder) (hsame : Bits.ofBytes bs ≠ [] → order' = order) :
      ∃ w', Writer.writeBytes bs order' w = .ok () w' ∧
        Writer.Writes order (Bits.ofBytes bs) w w' := by
    cases bs with
    | nil => exact ⟨w, rfl, Writer.Writes.refl h⟩
    | cons b bs =>
      have hne : Bits.ofBytes (b :: bs) ≠ [] := by
        intro hnil
        have := congrArg List.length hnil
        simp at this
      rw [hsame hne]
      exact Writer.writeBytes_of_ready h (b :: bs)
  cases op with
  | bits value width order' =>
    have hne : Bits.ofNat value.toNat width ≠ [] := by
      intro hnil
      have := congrArg List.length hnil
      rw [Bits.length_ofNat] at this
      exact absurd hvalid.1 (by simp [this])
    obtain rfl := horder hne order' rfl
    exact write_of_writes hw (Writer.keeps_writeBits value width _)
      (Writer.writeBits_of_ready h value hvalid.1 hvalid.2)
  | byte b order' =>
    obtain rfl := horder (by simp [content, Bits.ofNat]) order' rfl
    exact write_of_writes hw (Writer.keeps_writeByte b _) (Writer.writeByte_of_ready h b)
  | bytes bs order' =>
    exact write_of_writes hw (Writer.keeps_writeBytes bs _)
      (hbytes bs order' fun hne => horder hne order' rfl)
  | number n size endian order' =>
    exact write_of_writes hw (Writer.keeps_writeBytes _ _)
      (hbytes _ order' fun hne => horder hne order' rfl)
  | text t order' =>
    have hne : Bits.ofBytes (Writer.textBytes t) ≠ [] := by
      intro hnil
      have hlen := congrArg List.length hnil
      rw [Bits.length_ofBytes] at hlen
      cases t with
      | none => cases hlen
      | some t =>
        obtain ⟨leading, digits, hspell⟩ :=
          Writer.textLength_eq_cons (Text.Utf8.encode t).length
        rw [Writer.textBytes, hspell] at hlen
        simp at hlen
    obtain rfl := horder hne order' rfl
    exact write_of_writes hw (Writer.keeps_writeText t _) (Writer.writeText_of_ready h hvalid)
  | align n =>
    exact write_of_writes hw (Writer.keeps_align n) (Writer.align_of_ready h n)
  | skip count =>
    exact write_of_writes hw (Writer.keeps_skipBytes count) (Writer.skipBytes_of_ready h count)
  | reset =>
    obtain ⟨w', hrun, hadds, hzero⟩ := Writer.reset_of_ready h
    refine ⟨w', hrun, hadds, hzero, hadds.ready.used_lt, ?_⟩
    obtain ⟨_, w₁, -, hcounts⟩ := bind_eq_ok.mp hrun
    cases hcounts
    exact hzero.symm

/-- A reading operation that is known by the number of its bits. -/
theorem read_of_takes {α : Type} {m : ReadM α} {x : α} {n : Nat} (f : α → Answer) (hr : r.Tallied)
    (hkeeps : Keeps Reader.Tallied m) (h : ∃ r', m r = .ok x r' ∧ Reader.Takes n r r') :
    ∃ r', (f <$> m) r = .ok (f x) r' ∧ Reader.Consumes n r r' ∧ r'.position = r.position + n ∧
      r'.Tallied := by
  obtain ⟨r', hrun, htakes⟩ := h
  exact ⟨r', map_of_ok hrun, htakes.toConsumes, htakes.position, hkeeps _ _ _ hr hrun⟩

theorem ofNat_mod (n width : Nat) : Bits.ofNat (n % 2 ^ width) width = Bits.ofNat n width := by
  rw [← Bits.toNat_ofNat]
  have h := Bits.ofNat_toNat (Bits.ofNat n width)
  rwa [Bits.length_ofNat] at h

/-- An operation that has an order reads its own bits in it; any other passes over as many bits as
it has. -/
theorem read_of_ahead (hvalid : op.Valid) (hr : r.Tallied)
    (hroom : (op.content r.position).length ≤ r.remaining)
    (hahead : ∀ order, op.order = some order →
      ∃ rest, r.ahead order = op.content r.position ++ rest) :
    ∃ r', op.read r = .ok op.answer r' ∧
      Reader.Consumes (op.content r.position).length r r' ∧ r'.position = op.next r.position ∧
      r'.Tallied := by
  cases op with
  | bits value width order =>
    obtain ⟨rest, hrest⟩ := hahead order rfl
    have hlt : value.toNat % 2 ^ width < 2 ^ width := Nat.mod_lt _ (Nat.two_pow_pos width)
    have hbits : r.ahead order = Bits.ofNat (value.toNat % 2 ^ width) width ++ rest := by
      rw [ofNat_mod]
      exact hrest
    have hread := read_of_takes (fun n : UInt64 => .number n.toNat) hr
      (Reader.keeps_readBits width order)
      (Reader.readBits_of_ahead hr.sound hvalid.1 hvalid.2 hlt hbits)
    have hword : (UInt64.ofNat (value.toNat % 2 ^ width)).toNat = value.toNat % 2 ^ width := by
      rw [UInt64.toNat_ofNat']
      exact Nat.mod_eq_of_lt (Nat.lt_of_le_of_lt (Nat.mod_le _ _) value.toNat_lt)
    rw [hword] at hread
    simpa only [read, answer, next, content, Bits.length_ofNat] using hread
  | byte b order =>
    obtain ⟨rest, hrest⟩ := hahead order rfl
    have hread := read_of_takes .byte hr (Reader.keeps_readByte order)
      (Reader.readByte_of_ahead hr.sound hrest)
    simpa only [read, answer, next, content, Bits.length_ofNat] using hread
  | bytes bs order =>
    obtain ⟨rest, hrest⟩ := hahead order rfl
    have hread := read_of_takes .bytes hr (Reader.keeps_readBytes bs.length order)
      (Reader.readBytes_of_ahead hr.sound hrest)
    simpa only [read, answer, next, content, Bits.length_ofBytes] using hread
  | number n size endian order =>
    obtain ⟨rest, hrest⟩ := hahead order rfl
    have hread := read_of_takes .number hr (Reader.keeps_readNumber size endian order)
      (Reader.readNumber_of_ahead hr.sound hvalid hrest)
    simpa only [read, answer, next, content, Bits.length_ofBytes, ByteOrder.length_bytes] using
      hread
  | text t order =>
    obtain ⟨rest, hrest⟩ := hahead order rfl
    have hread := read_of_takes .text hr (Reader.keeps_readText order)
      (Reader.readText_of_ahead hr.sound hvalid hrest)
    simpa only [read, answer, next, content, Bits.length_ofBytes] using hread
  | align n =>
    rw [content, List.length_replicate] at hroom
    have hread := read_of_takes (fun _ : Unit => .nothing) hr (Reader.keeps_align n)
      (Reader.align_of_le hr.sound hroom)
    simpa only [read, answer, next, content, List.length_replicate] using hread
  | skip count =>
    rw [content, List.length_replicate] at hroom
    have hread := read_of_takes (fun _ : Unit => .nothing) hr (Reader.keeps_skipBytes count)
      (Reader.skipBytes_of_le hr.sound hroom)
    simpa only [read, answer, next, content, List.length_replicate] using hread
  | reset =>
    obtain ⟨r', hrun, hconsumes, hzero⟩ := Reader.reset_apply hr.sound
    refine ⟨r', map_of_ok hrun, ?_, hzero, hconsumes.sound, ?_⟩
    · rwa [content, List.length_replicate]
    · cases hrun
      exact hzero.symm

end StreamOp

/-! ## What a writer has behind it -/

namespace BitOrder

theorem prefix_stream {bs cs : List UInt8} (order : BitOrder) (h : bs <+: cs) :
    order.stream bs <+: order.stream cs := by
  obtain ⟨more, rfl⟩ := h
  rw [stream_append]
  exact List.prefix_append _ _

theorem prefix_of_stream (order : BitOrder) {bs cs : List UInt8}
    (h : order.stream bs <+: order.stream cs) : bs <+: cs := by
  have hlen := h.length_le
  rw [length_stream, length_stream] at hlen
  have hbits := List.prefix_iff_eq_take.mp h
  rw [length_stream, ← stream_take] at hbits
  rw [stream_inj hbits]
  exact List.take_prefix _ _

end BitOrder

namespace Writer

variable {w w' : Writer} {order : BitOrder} {bits : List Bool}

/-- Bits written at all. -/
def offset (w : Writer) : Nat := 8 * w.sink.received.size + w.used

theorem Adds.offset (h : w.Ready order) (hadds : Adds order bits w w') :
    w'.offset = w.offset + bits.length := by
  have hlen := congrArg List.length hadds.written
  rwa [List.length_append, hadds.ready.length_written, h.length_written] at hlen

theorem Adds.size_le (h : w.Ready order) (hadds : Adds order bits w w') :
    w.sink.received.size ≤ w'.sink.received.size := by
  have hoffset := hadds.offset h
  have hlt := hadds.ready.used_lt
  simp only [Writer.offset] at hoffset
  omega

theorem Adds.written_prefix (hadds : Adds order bits w w') :
    w.written order <+: w'.written order := by
  rw [hadds.written]
  exact List.prefix_append _ _

/-- The bytes that the sink has received stay. -/
theorem Adds.received (h : w.Ready order) (hadds : Adds order bits w w') :
    w.sink.received.toList <+: w'.sink.received.toList := by
  have hsize := hadds.size_le h
  apply BitOrder.prefix_of_stream order
  have hbehind : order.stream w.sink.received.toList <+: w'.written order := by
    exact (List.prefix_append _ _).trans hadds.written_prefix
  refine List.prefix_of_prefix_length_le hbehind (List.prefix_append _ _) ?_
  rw [BitOrder.length_stream, BitOrder.length_stream, Array.length_toList, Array.length_toList]
  omega

/-- A byte that is still zero may be filled in any order. -/
theorem Ready.of_zero (h : w.Ready order) (hzero : w.current = 0) (order' : BitOrder) :
    w.Ready order' :=
  ⟨h.used_lt, fun i _ _ => by simp [hzero], h.limit, h.flush⟩

/-- A byte of which nothing is filled is zero. -/
theorem Ready.current_eq_zero (h : w.Ready order)
    (hfilled : ∀ i < w.used, (order.logical w.current).toNat.testBit i = false) :
    w.current = 0 := by
  have hlogical : order.logical w.current = 0 := by
    apply Bits.ofNat_uint8_inj
    apply List.ext_getElem (by simp)
    intro i hi _
    rw [Bits.length_ofNat] at hi
    rw [Bits.getElem_ofNat, Bits.getElem_ofNat]
    by_cases hlow : i < w.used
    · simpa using hfilled i hlow
    · simpa using h.unfilled i (by omega) hi
  rw [← order.logical_logical w.current, hlogical, BitOrder.logical_zero]

/-- A byte that is begun by zeros alone is still zero. -/
theorem Adds.current_eq_zero {n : Nat} (h : w.Ready order)
    (hadds : Adds order (List.replicate n false) w w')
    (hsize : w.sink.received.size < w'.sink.received.size) : w'.current = 0 := by
  have hlt := h.used_lt
  have hlt' := hadds.ready.used_lt
  apply hadds.ready.current_eq_zero
  intro i hi
  have hlen : (order.stream w'.sink.received.toList).length = 8 * w'.sink.received.size := by
    rw [BitOrder.length_stream, Array.length_toList]
  have hlen' := h.length_written
  have hindex : 8 * w'.sink.received.size + i < (w'.written order).length := by
    rw [hadds.ready.length_written]
    omega
  have hbit : (w'.written order)[8 * w'.sink.received.size + i] =
      (order.logical w'.current).toNat.testBit i := by
    simp only [Writer.written]
    rw [List.getElem_append_right (by omega), List.getElem_take, Bits.getElem_ofNat]
    congr 1
    omega
  rw [← hbit]
  simp only [hadds.written]
  rw [List.getElem_append_right (by omega), List.getElem_replicate]

end Writer

namespace StreamOp

/-! ## Sequences -/

variable {op : StreamOp} {ops : List StreamOp} {w w' : Writer} {r r' : Reader}
  {orders : Nat → BitOrder} {bs : List UInt8}

/-- The order of the byte being filled. -/
def openOrder (orders : Nat → BitOrder) (w : Writer) : BitOrder := orders w.sink.received.size

/-- The bytes continue what the writer has behind it. -/
structure Ends (orders : Nat → BitOrder) (w : Writer) (bs : List UInt8) : Prop where
  received : w.sink.received.toList <+: bs
  written : w.written (openOrder orders w) <+: (openOrder orders w).stream bs

/-- The reader has come as far in the bytes as the writer had. -/
structure Follows (r : Reader) (w : Writer) (bs : List UInt8) : Prop where
  tallied : r.Tallied
  position : r.position = w.position
  ahead : ∀ order : BitOrder, r.ahead order = (order.stream bs).drop w.offset

/-- The counters of a reader and a writer at the same place. -/
structure InStep (w : Writer) (r : Reader) : Prop where
  bitCount : r.bitCount = w.bitCount
  byteCount : r.byteCount = w.streamCount
  cursor : 8 * r.byteCount = r.bitCount + r.buffered

theorem Follows.inStep (h : Follows r w bs) (hw : w.Tallied) {order : BitOrder}
    (hready : w.Ready order) : InStep w r := by
  have hcount := h.tallied.count
  have hposition := h.tallied.sound.position_add
  refine ⟨?_, ?_, by omega⟩
  · rw [hcount, h.position, hw.count]
  · rw [h.tallied.sound.byteCount_eq, h.position, hready.streamCount_eq]

/-- An operation which has bits in the byte being filled has the order of that byte. -/
theorem order_eq_openOrder {position : Nat}
    (hagrees : Agrees orders (op.span w.offset position).toList) (hlt : w.used < 8)
    (hne : op.content position ≠ []) {order : BitOrder} (horder : op.order = some order) :
    order = openOrder orders w := by
  have hpos : 0 < (op.content position).length := List.length_pos_iff.mpr hne
  have hspan : (⟨order, w.offset, w.offset + (op.content position).length⟩ : Span) ∈
      (op.span w.offset position).toList := by
    rw [span, horder]
    exact List.mem_singleton_self _
  refine hagrees _ hspan _ ⟨w.offset, Nat.le_refl _, Nat.lt_add_of_pos_right hpos, ?_⟩
  simp only [Writer.offset]
  omega

/-- An operation which has an order, and has gone on to a further byte, has the order of that byte
too if it has begun it. -/
theorem order_eq_openOrder' {position : Nat}
    (hagrees : Agrees orders (op.span w.offset position).toList)
    (hoffset : w'.offset = w.offset + (op.content position).length) (hused : 0 < w'.used)
    (hlt : w'.used < 8) (hsize : w.sink.received.size < w'.sink.received.size)
    (hlt' : w.used < 8) {order : BitOrder} (horder : op.order = some order) :
    order = openOrder orders w' := by
  have hspan : (⟨order, w.offset, w.offset + (op.content position).length⟩ : Span) ∈
      (op.span w.offset position).toList := by
    rw [span, horder]
    exact List.mem_singleton_self _
  simp only [Writer.offset] at hoffset
  refine hagrees _ hspan _ ⟨8 * w'.sink.received.size, ?_, ?_, by omega⟩
  · simp only [Writer.offset]
    omega
  · simp only [Writer.offset]
    omega

/-- An operation that has no order has only zeros to write. -/
theorem content_of_no_order (h : op.order = none) (position : Nat) :
    op.content position = List.replicate (op.content position).length false := by
  cases op with
  | align n => simp [content]
  | skip count => simp [content]
  | reset => simp [content]
  | bits | byte | bytes | number | text => cases h

/-- The byte being filled goes on to be filled in its own order. -/
theorem ready_of_adds (hready : w.Ready (openOrder orders w)) {position : Nat}
    (hagrees : Agrees orders (op.span w.offset position).toList)
    (hadds : Writer.Adds (openOrder orders w) (op.content position) w w') :
    w'.Ready (openOrder orders w') := by
  have hle := hadds.size_le hready
  have hready' := hadds.ready
  rcases Nat.eq_or_lt_of_le hle with hsame | hfurther
  · rwa [openOrder, hsame] at hready'
  · by_cases hzero : w'.used = 0
    · exact hready'.of_zero (hready'.current_eq_zero (by simp [hzero])) _
    · cases horder : op.order with
      | none =>
        rw [content_of_no_order horder] at hadds
        exact hready'.of_zero (hadds.current_eq_zero hready hfurther) _
      | some order =>
        have hne : op.content position ≠ [] := by
          intro hnil
          have hoffset := hadds.offset hready
          have hlt := hready.used_lt
          rw [hnil] at hoffset
          simp only [Writer.offset, List.length_nil] at hoffset
          omega
        have hfirst := order_eq_openOrder hagrees hready.used_lt hne horder
        have hlast := order_eq_openOrder' hagrees (hadds.offset hready) (Nat.pos_of_ne_zero hzero)
          hready'.used_lt hfurther hready.used_lt horder
        rwa [← hfirst, hlast] at hready'

/-- What continues the later writer continues the earlier one, and there are at least as many bits
as the later one has written. -/
theorem ends_of_adds (hready : w.Ready (openOrder orders w)) {position : Nat}
    (hagrees : Agrees orders (op.span w.offset position).toList)
    (hadds : Writer.Adds (openOrder orders w) (op.content position) w w')
    (hends : Ends orders w' bs) :
    Ends orders w bs ∧ (w.offset + (op.content position).length ≤ 8 * bs.length) ∧
      (op.content position ≠ [] → op.order.isSome →
        w'.written (openOrder orders w) <+: (openOrder orders w).stream bs) := by
  have hle := hadds.size_le hready
  have hready' := hadds.ready
  have hlast := ready_of_adds hready hagrees hadds
  have hstream := BitOrder.prefix_stream (openOrder orders w) hends.received
  have hoffset := hadds.offset hready
  have hroom := hends.written.length_le
  rw [hlast.length_written, BitOrder.length_stream] at hroom
  have hbehind : w.written (openOrder orders w) <+: (openOrder orders w).stream bs ∧
      (op.content position ≠ [] → op.order.isSome →
        w'.written (openOrder orders w) <+: (openOrder orders w).stream bs) := by
    rcases Nat.eq_or_lt_of_le hle with hsame | hfurther
    · have hopen : openOrder orders w' = openOrder orders w := by
        rw [openOrder, ← hsame, openOrder]
      have hwritten := hends.written
      rw [hopen] at hwritten
      exact ⟨hadds.written_prefix.trans hwritten, fun _ _ => hwritten⟩
    · constructor
      · refine List.IsPrefix.trans ?_ hstream
        refine List.prefix_of_prefix_length_le hadds.written_prefix (List.prefix_append _ _) ?_
        have hlt := hready.used_lt
        rw [hready.length_written, BitOrder.length_stream, Array.length_toList]
        omega
      · intro hne hsome
        obtain ⟨order, horder⟩ := Option.isSome_iff_exists.mp hsome
        by_cases hzero : w'.used = 0
        · rw [Writer.written, hzero, List.take_zero, List.append_nil]
          exact hstream
        · have hfirst := order_eq_openOrder hagrees hready.used_lt hne horder
          have hnext := order_eq_openOrder' hagrees hoffset (Nat.pos_of_ne_zero hzero)
            hready'.used_lt hfurther hready.used_lt horder
          rw [← hfirst, hnext]
          exact hends.written
  refine ⟨⟨(hadds.received hready).trans hends.received, hbehind.1⟩, ?_, hbehind.2⟩
  rw [← hoffset]
  exact hroom

/-- The reader of what a writer gives in the end finds its bits ahead. -/
theorem Follows.exists_rest (h : Follows r w bs) {order : BitOrder} (hready : w.Ready order)
    {bits : List Bool} (hwritten : w.written order ++ bits <+: order.stream bs) :
    ∃ rest, r.ahead order = bits ++ rest := by
  obtain ⟨rest, hrest⟩ := hwritten
  refine ⟨rest, ?_⟩
  rw [h.ahead, ← hrest, List.append_assoc, Writer.offset, ← hready.length_written,
    List.drop_left]

/-- The reader after an operation has come as far as the writer after it. -/
theorem Follows.read (h : Follows r w bs) (hvalid : op.Valid)
    (hready : w.Ready (openOrder orders w))
    (hagrees : Agrees orders (op.span w.offset w.position).toList)
    (hadds : Writer.Adds (openOrder orders w) (op.content w.position) w w')
    (hposition : w'.position = op.next w.position) (hends : Ends orders w' bs) :
    ∃ r', op.read r = .ok op.answer r' ∧ Follows r' w' bs := by
  obtain ⟨-, hroom, hfront⟩ := ends_of_adds hready hagrees hadds hends
  have hremaining : r.remaining = 8 * bs.length - w.offset := by
    rw [← Reader.length_ahead .lsb0, h.ahead, List.length_drop, BitOrder.length_stream]
  obtain ⟨r', hread, hconsumes, hnext, htallied⟩ := read_of_ahead hvalid h.tallied
    (by rw [h.position]; omega) (fun order horder => by
      by_cases hne : op.content w.position = []
      · exact ⟨r.ahead order, by rw [h.position, hne, List.nil_append]⟩
      · have hsame := order_eq_openOrder hagrees hready.used_lt hne horder
        have hwritten := hfront hne (by rw [horder]; rfl)
        rw [hadds.written] at hwritten
        rw [h.position, hsame]
        exact h.exists_rest hready hwritten)
  refine ⟨r', hread, htallied, ?_, fun order => ?_⟩
  · rw [hnext, hposition, h.position]
  · rw [hconsumes.ahead, h.ahead, List.drop_drop, hadds.offset hready, h.position]

/-- The induction on the operations that are left: the bytes are not known before the last of them
is written, and only then is any of them read. -/
theorem readAll_of_writeAll_from (hvalid : ∀ op ∈ ops, op.Valid) (hw : w.Tallied)
    (hready : w.Ready (openOrder orders w))
    (hagrees : Agrees orders (spans w.offset w.position ops)) :
    ∃ ws w' w'', writeAll ops w = .ok ws w' ∧ Writer.finish w' = .ok () w'' ∧
      w'.Ready (openOrder orders w') ∧
      (openOrder orders w').stream w''.sink.received.toList =
        w'.written (openOrder orders w') ++
          List.replicate (Bits.toByte (w'.written (openOrder orders w')).length) false ∧
      Ends orders w w''.sink.received.toList ∧
      ∀ r, Follows r w w''.sink.received.toList →
        ∃ rs r', readAll ops r = .ok rs r' ∧ rs.map Prod.fst = ops.map answer ∧
          List.Forall₂ InStep ws (rs.map Prod.snd) ∧
          Follows r' w' w''.sink.received.toList := by
  induction ops generalizing w with
  | nil =>
    obtain ⟨w'', hfinish, hbits⟩ := Writer.finish_of_ready hready
    refine ⟨[], w, w'', rfl, hfinish, hready, hbits, ⟨?_, ?_⟩,
      fun r hr => ⟨[], r, rfl, rfl, .nil, hr⟩⟩
    · apply BitOrder.prefix_of_stream (openOrder orders w)
      rw [hbits, Writer.written, List.append_assoc]
      exact List.prefix_append _ _
    · rw [hbits]
      exact List.prefix_append _ _
  | cons op ops ih =>
    have hfirst : Agrees orders (op.span w.offset w.position).toList :=
      fun span hspan => hagrees span (List.mem_append_left _ hspan)
    obtain ⟨w₁, hwrite, hadds, hposition, hw₁⟩ := write_of_ready (hvalid op List.mem_cons_self) hw
      hready fun hne order horder => order_eq_openOrder hfirst hready.used_lt hne horder
    have hready₁ := ready_of_adds hready hfirst hadds
    have hrest : Agrees orders (spans w₁.offset w₁.position ops) := by
      rw [hadds.offset hready, hposition]
      exact fun span hspan => hagrees span (List.mem_append_right _ hspan)
    obtain ⟨ws, w', w'', hmore, hfinish, hready', hbits, hends, hreads⟩ :=
      ih (fun op hop => hvalid op (List.mem_cons_of_mem _ hop)) hw₁ hready₁ hrest
    refine ⟨w₁ :: ws, w', w'', ?_, hfinish, hready', hbits,
      (ends_of_adds hready hfirst hadds hends).1, fun r hr => ?_⟩
    · rw [writeAll, bind_of_ok hwrite, bind_of_ok (get_apply w₁), bind_of_ok hmore]
      rfl
    · obtain ⟨r₁, hread, hr₁⟩ := hr.read (hvalid op List.mem_cons_self) hready hfirst hadds
        hposition hends
      obtain ⟨rs, r', hmore', hanswers, hsteps, hr'⟩ := hreads r₁ hr₁
      refine ⟨(op.answer, r₁) :: rs, r', ?_, ?_, ?_, hr'⟩
      · rw [readAll, bind_of_ok hread, bind_of_ok (get_apply r₁), bind_of_ok hmore']
        rfl
      · rw [List.map_cons, List.map_cons, hanswers]
      · exact .cons (hr₁.inStep hw₁ hready₁) hsteps

/-- What is written to a fresh sink is read back, with the counters in step after every operation.
At the end less than a byte is left, which is zero in the order of the operations that share it. -/
theorem readAll_of_writeAll (ops : List StreamOp) (hvalid : ∀ op ∈ ops, op.Valid)
    (horder : OneOrder ops) :
    ∃ ws w w' rs r,
      writeAll ops (.ofSink .empty) = .ok ws w ∧ Writer.finish w = .ok () w' ∧
      readAll ops (.ofSource (.ofBytes w'.sink.received.toList)) = .ok rs r ∧
      rs.map Prod.fst = ops.map answer ∧ List.Forall₂ InStep ws (rs.map Prod.snd) ∧
      r.remaining < 8 ∧
      ∃ order, r.ahead order = List.replicate r.remaining false ∧
        ∀ span ∈ spans 0 0 ops, span.Touches (w'.sink.received.size - 1) → span.order = order := by
  obtain ⟨orders, hagrees⟩ := horder.exists_orders
  have hfresh : ∀ order, (Writer.ofSink .empty).Ready order := Writer.ready_ofSink rfl rfl
  obtain ⟨ws, w, w', hwrite, hfinish, hready, hbits, -, hreads⟩ :=
    readAll_of_writeAll_from (w := .ofSink .empty) hvalid (Writer.tallied_ofSink _)
      (hfresh _) hagrees
  have hstart : Follows (.ofSource (.ofBytes w'.sink.received.toList)) (.ofSink .empty)
      w'.sink.received.toList := by
    refine ⟨Reader.tallied_ofSource _, rfl, fun order => ?_⟩
    rw [Reader.ahead_ofSource, Source.bytes_ofBytes]
    rfl
  obtain ⟨rs, r, hread, hanswers, hsteps, hr⟩ := hreads _ hstart
  have hahead : r.ahead (openOrder orders w) =
      List.replicate (Bits.toByte (w.written (openOrder orders w)).length) false := by
    rw [hr.ahead, hbits, Writer.offset, ← hready.length_written, List.drop_left]
  have hremaining : r.remaining = Bits.toByte (w.written (openOrder orders w)).length := by
    rw [← Reader.length_ahead (openOrder orders w), hahead, List.length_replicate]
  refine ⟨ws, w, w', rs, r, hwrite, hfinish, hread, hanswers, hsteps, ?_, ?_⟩
  · rw [hremaining]
    exact Bits.toByte_lt _
  · by_cases hzero : r.remaining = 0
    · refine ⟨orders (w'.sink.received.size - 1), ?_, fun span hspan => hagrees span hspan _⟩
      rw [hzero]
      exact List.eq_nil_of_length_eq_zero ((Reader.length_ahead _ r).trans hzero)
    · -- The byte being filled is the last one.
      have hsize := congrArg List.length hbits
      have hlt := hready.used_lt
      rw [List.length_append, List.length_replicate, ← hremaining, hready.length_written,
        BitOrder.length_stream, Array.length_toList] at hsize
      have hbelow : r.remaining < 8 := hremaining ▸ Bits.toByte_lt _
      have hlast : w'.sink.received.size - 1 = w.sink.received.size := by omega
      rw [hlast]
      exact ⟨openOrder orders w, hremaining ▸ hahead, fun span hspan => hagrees span hspan _⟩

/-- Three bits of one order and a skip, which ends inside a byte that goes on in the other order. -/
theorem readAll_of_writeAll_mixed :
    ∃ ws w w' rs r,
      writeAll [.bits 13 3 .lsb0, .skip 1, .byte 0xAB .msb0, .align 4, .reset,
        .number 0x1234 2 .big .lsb0] (.ofSink .empty) = .ok ws w ∧
      Writer.finish w = .ok () w' ∧
      readAll [.bits 13 3 .lsb0, .skip 1, .byte 0xAB .msb0, .align 4, .reset,
        .number 0x1234 2 .big .lsb0] (.ofSource (.ofBytes w'.sink.received.toList)) = .ok rs r ∧
      rs.map Prod.fst = [.number 5, .nothing, .byte 0xAB, .nothing, .nothing, .number 0x1234] ∧
      List.Forall₂ InStep ws (rs.map Prod.snd) := by
  obtain ⟨ws, w, w', rs, r, hwrite, hfinish, hread, hanswers, hsteps, -⟩ :=
    readAll_of_writeAll [.bits 13 3 .lsb0, .skip 1, .byte 0xAB .msb0, .align 4, .reset,
      .number 0x1234 2 .big .lsb0] (by simp [Valid]) (by
        have hspans : spans 0 0 [.bits 13 3 .lsb0, .skip 1, .byte 0xAB .msb0, .align 4, .reset,
            .number 0x1234 2 .big .lsb0] =
          [⟨.lsb0, 0, 3⟩, ⟨.msb0, 11, 19⟩, ⟨.lsb0, 32, 48⟩] := rfl
        rw [OneOrder, hspans]
        simp only [List.mem_cons, List.not_mem_nil, or_false]
        rintro a (rfl | rfl | rfl) b (rfl | rfl | rfl) byte ⟨i, hi⟩ ⟨j, hj⟩ <;>
          first | rfl | (simp only at hi hj; omega))
  exact ⟨ws, w, w', rs, r, hwrite, hfinish, hread, hanswers, hsteps⟩

end StreamOp

end RecordLayout
