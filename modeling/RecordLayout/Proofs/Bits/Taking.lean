import RecordLayout.Proofs.Bits.Stream
import RecordLayout.Proofs.Outcome

/-!
# What a reader takes

An operation of a reader takes a number of bits from the front of those ahead of it. `Consumes` says
this of two states of the reader, whatever the bit order, and `Takes` adds that the bits are
counted; `reset` is the only operation that consumes bits without counting them.
-/

namespace RecordLayout

namespace Source

@[simp] theorem bytes_nil (failure : Option String) : (⟨[], failure⟩ : Source).bytes = [] := rfl

/-- A source with a byte serves it, behind its interruptions. -/
theorem next_of_bytes_cons {s : Source} {b : UInt8} {bs : List UInt8} (h : s.bytes = b :: bs) :
    ∃ rest, s.next = .byte b rest ∧ rest.bytes = bs ∧ rest.failure = s.failure := by
  rcases s with ⟨events, failure⟩
  induction events with
  | nil => simp [bytes] at h
  | cons e events ih =>
    cases e with
    | byte c =>
      simp only [bytes, List.filterMap_cons, List.cons.injEq] at h
      obtain ⟨rfl, rfl⟩ := h
      exact ⟨⟨events, failure⟩, rfl, rfl, rfl⟩
    | interrupted => exact ih h

/-- A source that is out of bytes ends or fails. -/
theorem next_of_spent {s : Source} (h : s.bytes = []) :
    s.next = match s.failure with
      | none => .ended
      | some message => .failed message := by
  rcases s with ⟨events, failure⟩
  induction events with
  | nil => rfl
  | cons e events ih =>
    cases e with
    | byte c => simp [bytes] at h
    | interrupted => exact ih h

/-- A run of bytes is the front of those to be served. -/
theorem takeUpTo_bytes (count : Nat) (events : List Event) (failure : Option String) :
    (takeUpTo count events).1 = (⟨events, failure⟩ : Source).bytes.take count ∧
      (⟨(takeUpTo count events).2, failure⟩ : Source).bytes =
        (⟨events, failure⟩ : Source).bytes.drop count := by
  induction events generalizing count with
  | nil => simp [takeUpTo, bytes]
  | cons e events ih =>
    cases count with
    | zero => simp [takeUpTo]
    | succ count =>
      cases e with
      | byte b =>
        obtain ⟨h₁, h₂⟩ := ih count
        simp only [takeUpTo, bytes, List.filterMap_cons, List.take_succ_cons, List.drop_succ_cons]
        exact ⟨congrArg (b :: ·) h₁, h₂⟩
      | interrupted => exact ih (count + 1)

end Source

namespace Reader

/-- The bytes that are not fetched yet. -/
def unfetched (r : Reader) : List UInt8 := r.lookahead.toList ++ r.source.bytes

/-- The reader with other bytes to come. -/
def withBytes (r : Reader) (source : Source) (lookahead : Option UInt8) : Reader :=
  { r with source := source, lookahead := lookahead }

/-- The bits that a reader has ahead of it. -/
def ahead (order : BitOrder) (r : Reader) : List Bool :=
  (Bits.ofNat (order.logical r.current).toNat 8).drop r.used ++ order.stream r.unfetched

/-- Bits taken since the last reset. -/
def position (r : Reader) : Nat := 8 * r.byteCount - r.buffered

/-- Bits taken at all. -/
def offset (r : Reader) : Nat := 8 * r.fetched - r.buffered

/-- What holds of every reader that is in use: less than a byte is buffered, and it was counted when
it was fetched. -/
structure Sound (r : Reader) : Prop where
  used_pos : 0 < r.used
  used_le : r.used ≤ 8
  counted : r.used < 8 → 0 < r.byteCount
  fetched : r.byteCount ≤ r.fetched

theorem length_ahead (order : BitOrder) (r : Reader) : (r.ahead order).length = r.remaining := by
  simp only [ahead, List.length_append, List.length_drop, Bits.length_ofNat,
    BitOrder.length_stream, unfetched, remaining, buffered, Source.size_eq_length_bytes]
  omega

theorem remaining_eq (r : Reader) : r.remaining = 8 * r.unfetched.length + r.buffered := by
  simp only [unfetched, remaining, Source.size_eq_length_bytes, List.length_append]
  omega

namespace Sound

variable {r : Reader}

theorem buffered_lt (h : r.Sound) : r.buffered < 8 := by
  have := h.used_pos
  simp only [buffered]
  omega

theorem buffered_le (h : r.Sound) : r.buffered ≤ 8 * r.byteCount := by
  have h₁ := h.counted
  have h₂ := h.used_pos
  simp only [buffered]
  by_cases hused : r.used < 8
  · have := h₁ hused
    omega
  · omega

/-- What has been taken since the last reset, with what is left, makes whole bytes. -/
theorem position_add (h : r.Sound) : r.position + r.buffered = 8 * r.byteCount := by
  have := h.buffered_le
  simp only [position]
  omega

/-- What has been taken at all, with what is left, makes whole bytes. -/
theorem offset_add (h : r.Sound) : r.offset + r.buffered = 8 * r.fetched := by
  have h₁ := h.buffered_le
  have h₂ := h.fetched
  simp only [offset]
  omega

/-- The byte counter of expressions, from the bits taken. -/
theorem byteCount_eq (h : r.Sound) : r.byteCount = (r.position + 7) / 8 := by
  have h₁ := h.position_add
  have h₂ := h.buffered_lt
  omega

theorem fetched_eq (h : r.Sound) : r.fetched = (r.offset + 7) / 8 := by
  have h₁ := h.offset_add
  have h₂ := h.buffered_lt
  omega

end Sound

theorem sound_ofSource (source : Source) : (ofSource source).Sound :=
  ⟨by simp [ofSource], by simp [ofSource], by simp [ofSource], by simp [ofSource]⟩

@[simp] theorem offset_ofSource (source : Source) : (ofSource source).offset = 0 := rfl

theorem ahead_ofSource (order : BitOrder) (source : Source) :
    (ofSource source).ahead order = order.stream source.bytes := by
  simp [ahead, ofSource, unfetched]

/-- The second state is the first one after a number of bits. -/
structure Consumes (n : Nat) (r r' : Reader) : Prop where
  enough : n ≤ r.remaining
  ahead : ∀ order, r'.ahead order = (r.ahead order).drop n
  offset : r'.offset = r.offset + n
  sound : r'.Sound
  failure : r'.source.failure = r.source.failure

/-- The same with the bits counted. -/
structure Takes (n : Nat) (r r' : Reader) : Prop extends Consumes n r r' where
  position : r'.position = r.position + n

/-- Two operations in a row consume the bits of both. -/
theorem Consumes.trans {m n : Nat} {r r₁ r₂ : Reader} (h₁ : Consumes m r r₁)
    (h₂ : Consumes n r₁ r₂) : Consumes (m + n) r r₂ := by
  refine ⟨?_, fun order => ?_, ?_, h₂.sound, h₂.failure.trans h₁.failure⟩
  · have hlen := congrArg List.length (h₁.ahead .lsb0)
    rw [length_ahead, List.length_drop, length_ahead] at hlen
    have := h₁.enough
    have := h₂.enough
    omega
  · rw [h₂.ahead, h₁.ahead, List.drop_drop]
  · rw [h₂.offset, h₁.offset, Nat.add_assoc]

theorem Takes.trans {m n : Nat} {r r₁ r₂ : Reader} (h₁ : Takes m r r₁) (h₂ : Takes n r₁ r₂) :
    Takes (m + n) r r₂ :=
  ⟨h₁.toConsumes.trans h₂.toConsumes, by rw [h₂.position, h₁.position, Nat.add_assoc]⟩

theorem Takes.refl {r : Reader} (h : r.Sound) : Takes 0 r r :=
  ⟨⟨Nat.zero_le _, fun _ => rfl, rfl, h, rfl⟩, rfl⟩

/-- The bit counter plays no part. -/
theorem Takes.counting {n : Nat} {r r' : Reader} (h : Takes n r r') (count : Nat) :
    Takes n r { r' with bitCount := count } :=
  ⟨⟨h.enough, h.ahead, h.offset,
    ⟨h.sound.used_pos, h.sound.used_le, h.sound.counted, h.sound.fetched⟩, h.failure⟩, h.position⟩

/-- It plays no part either which of the bytes to come was looked at. -/
theorem Takes.withBytes {n : Nat} {r r' : Reader} (h : Takes n r r') {source : Source}
    {lookahead : Option UInt8} (hbytes : lookahead.toList ++ source.bytes = r'.unfetched)
    (hfailure : source.failure = r'.source.failure) :
    Takes n r (r'.withBytes source lookahead) := by
  refine ⟨⟨h.enough, fun order => ?_, h.offset,
    ⟨h.sound.used_pos, h.sound.used_le, h.sound.counted, h.sound.fetched⟩,
    hfailure.trans h.failure⟩, h.position⟩
  rw [← h.ahead, Reader.ahead, Reader.ahead, ← hbytes]
  rfl

theorem Consumes.remaining {n : Nat} {r r' : Reader} (h : Consumes n r r') :
    r.remaining = n + r'.remaining := by
  have hlen := congrArg List.length (h.ahead .lsb0)
  rw [length_ahead, List.length_drop, length_ahead] at hlen
  have := h.enough
  omega

/-- The bits ahead, split where the operation stopped. -/
theorem Consumes.ahead_eq {n : Nat} {r r' : Reader} (h : Consumes n r r') (order : BitOrder) :
    r.ahead order = (r.ahead order).take n ++ r'.ahead order := by
  rw [h.ahead, List.take_append_drop]

/-- The bits behind those that were taken. -/
theorem Consumes.rest_eq {r r' : Reader} {order : BitOrder} {bits rest : List Bool}
    (h : Consumes bits.length r r') (hr : r.ahead order = bits ++ rest) :
    r'.ahead order = rest := by
  rw [h.ahead, hr, List.drop_left]

end Reader

end RecordLayout
