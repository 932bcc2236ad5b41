import RecordLayout.Proofs.Bits.Reading

/-!
# Skips, alignment and the end of the stream

What a directive passes over is a number of bits that depends on the position alone. The tests for
the end of the stream take nothing; they may only look at the next byte.
-/

namespace RecordLayout

namespace Bits

theorem drop_ofNat (n width k : Nat) : (ofNat n width).drop k = ofNat (n / 2 ^ k) (width - k) := by
  apply List.ext_getElem (by simp)
  intro i h h'
  rw [List.getElem_drop, getElem_ofNat, getElem_ofNat, Nat.testBit_div_two_pow, Nat.add_comm]

/-- Only the number zero has no bit set. -/
theorem ofNat_eq_replicate_iff {n width : Nat} (h : n < 2 ^ width) :
    ofNat n width = List.replicate width false ↔ n = 0 := by
  constructor
  · intro hbits
    rw [← ofNat_zero_left] at hbits
    exact ofNat_inj h (Nat.two_pow_pos width) hbits
  · rintro rfl
    simp

/-- The bits from a position to the end of its byte. -/
def toByte (position : Nat) : Nat := 8 * ((position + 7) / 8) - position

/-- The bits from a position to the next multiple of `n` bytes. -/
def toMultiple (position n : Nat) : Nat :=
  toByte position + 8 * ((n - (position + 7) / 8 % n) % n)

theorem toByte_lt (position : Nat) : toByte position < 8 := by
  simp only [toByte]
  omega

end Bits

namespace Reader

/-- The bits left of a byte are as many as it takes from the position to the next byte. -/
theorem Sound.buffered_eq {r : Reader} (h : r.Sound) : r.buffered = Bits.toByte r.position := by
  have h₁ := h.position_add
  have h₂ := h.buffered_lt
  simp only [Bits.toByte]
  omega

/-- Bytes can be skipped as long as their bits remain. -/
theorem skipBytes_of_le {r : Reader} (hs : r.Sound) {count : Nat} (h : 8 * count ≤ r.remaining) :
    ∃ r', skipBytes count r = .ok () r' ∧ Takes (8 * count) r r' := by
  induction count generalizing r with
  | zero => exact ⟨r, rfl, Takes.refl hs⟩
  | succ count ih =>
    obtain ⟨b, r₁, hread, htakes⟩ := readByte_of_le hs .lsb0 (by omega)
    have hrem := htakes.remaining
    obtain ⟨r₂, hskip, htakes'⟩ := ih htakes.sound (by omega)
    refine ⟨r₂, ?_, ?_⟩
    · rw [skipBytes, bind_of_ok hread, hskip]
    · rw [Nat.mul_succ, Nat.add_comm]
      exact htakes.trans htakes'

theorem skipBytes_eq_ok {r r' : Reader} (hs : r.Sound) {count : Nat}
    (h : skipBytes count r = .ok () r') : Takes (8 * count) r r' := by
  induction count generalizing r with
  | zero =>
    cases h
    exact Takes.refl hs
  | succ count ih =>
    rw [skipBytes] at h
    obtain ⟨b, r₁, hread, h⟩ := bind_eq_ok.mp h
    obtain ⟨htakes, -⟩ := readByte_eq_ok hs hread
    rw [Nat.mul_succ, Nat.add_comm]
    exact htakes.trans (ih htakes.sound h)

/-- A reader that leaves the byte being read. -/
def atByte (r : Reader) : Reader := { r with bitCount := r.bitCount + r.buffered, used := 8 }

theorem leaveByte_apply (r : Reader) : leaveByte r = .ok () r.atByte := rfl

/-- Leaving a byte takes the bits that are left of it. -/
theorem takes_atByte {r : Reader} (hs : r.Sound) : Takes r.buffered r r.atByte := by
  have hpos := hs.position_add
  have hoff := hs.offset_add
  have hle := hs.buffered_le
  refine ⟨⟨?_, fun order => ?_, ?_, ⟨by simp [atByte], by simp [atByte],
    fun h => absurd h (by simp [atByte]), hs.fetched⟩, rfl⟩, ?_⟩
  · rw [remaining_eq]
    omega
  · rw [ahead_of_aligned (by simp [atByte]), ahead, List.drop_append, List.drop_drop]
    have hused := hs.used_le
    have hlen : ((Bits.ofNat (order.logical r.current).toNat 8).drop r.used).length =
        r.buffered := by
      rw [List.length_drop, Bits.length_ofNat, buffered]
    rw [hlen, Nat.sub_self, List.drop_zero,
      List.drop_of_length_le (by rw [Bits.length_ofNat, buffered]; omega), List.nil_append]
    rfl
  · simp only [offset, buffered, atByte] at hoff ⊢
    omega
  · simp only [position, buffered, atByte] at hpos ⊢
    omega

/-- An alignment skips whole bytes behind the byte being read. -/
theorem align_apply (r : Reader) (n : Nat) :
    align n r = skipBytes ((n - r.byteCount % n) % n) r.atByte := by
  simp only [align, bind_of_ok (leaveByte_apply r), bind_of_ok (get_apply r.atByte)]
  rfl

theorem toMultiple_eq {r : Reader} (hs : r.Sound) (n : Nat) :
    Bits.toMultiple r.position n = r.buffered + 8 * ((n - r.byteCount % n) % n) := by
  rw [Bits.toMultiple, ← hs.byteCount_eq, hs.buffered_eq]

theorem align_of_le {r : Reader} (hs : r.Sound) {n : Nat}
    (h : Bits.toMultiple r.position n ≤ r.remaining) :
    ∃ r', align n r = .ok () r' ∧ Takes (Bits.toMultiple r.position n) r r' := by
  have hleave := takes_atByte hs
  have hrem := hleave.remaining
  rw [toMultiple_eq hs] at h ⊢
  obtain ⟨r', hskip, htakes⟩ := skipBytes_of_le hleave.sound
    (show 8 * ((n - r.byteCount % n) % n) ≤ r.atByte.remaining by omega)
  exact ⟨r', (align_apply r n).trans hskip, hleave.trans htakes⟩

theorem align_eq_ok {r r' : Reader} (hs : r.Sound) {n : Nat} (h : align n r = .ok () r') :
    Takes (Bits.toMultiple r.position n) r r' := by
  rw [align_apply] at h
  have hleave := takes_atByte hs
  rw [toMultiple_eq hs]
  exact hleave.trans (skipBytes_eq_ok hleave.sound h)

/-- A reset leaves the byte being read and counts from zero. -/
theorem reset_apply {r : Reader} (hs : r.Sound) :
    ∃ r', reset r = .ok () r' ∧ Consumes (Bits.toByte r.position) r r' ∧ r'.position = 0 := by
  have hleave := takes_atByte hs
  refine ⟨{ r.atByte with bitCount := 0, byteCount := 0 }, rfl, ?_, rfl⟩
  rw [← hs.buffered_eq]
  exact ⟨hleave.enough, hleave.ahead, hleave.offset,
    ⟨hleave.sound.used_pos, hleave.sound.used_le, fun h => absurd h (by simp [atByte]),
      Nat.zero_le _⟩, hleave.failure⟩

/-! ## The end of the stream -/

/-- A look puts a byte that there is at the front. -/
theorem hasByte_of_cons {r : Reader} {b : UInt8} {bs : List UInt8} (h : r.unfetched = b :: bs) :
    ∃ source lookahead, hasByte r = .ok true (r.withBytes source lookahead) ∧
      lookahead.toList ++ source.bytes = r.unfetched ∧ source.failure = r.source.failure := by
  cases hlook : r.lookahead with
  | some c =>
    refine ⟨r.source, r.lookahead, ?_, rfl, rfl⟩
    simp only [hasByte, bind_of_ok (get_apply r), hlook]
    rw [← hlook]
    rfl
  | none =>
    obtain ⟨source, hpull, hsource, hfailure⟩ := pull_of_cons h
    refine ⟨source, some b, ?_, by rw [h, hsource]; rfl, hfailure⟩
    simp only [hasByte, bind_of_ok (get_apply r), hlook, bind_of_ok hpull]
    rfl

/-- A look where no byte is left tells whether the source ends or fails. -/
theorem hasByte_of_nil {r : Reader} (h : r.unfetched = []) :
    ∃ source : Source, source.bytes = [] ∧ source.failure = r.source.failure ∧
      hasByte r = match r.source.failure with
        | none => .ok false (r.withBytes source none)
        | some message => .error (.device message) (r.withBytes source none) := by
  obtain ⟨source, hbytes, hfailure, hpull⟩ := pull_of_spent h
  obtain ⟨hlook, -⟩ := List.append_eq_nil_iff.mp h
  rw [Option.toList_eq_nil_iff] at hlook
  refine ⟨source, hbytes, hfailure, ?_⟩
  simp only [hasByte, bind_of_ok (get_apply r), hlook]
  cases hends : r.source.failure with
  | none =>
    rw [hends] at hpull
    exact bind_of_ok hpull
  | some message =>
    rw [hends] at hpull
    exact bind_of_error hpull

/-- The end of the stream can be told from its beginning only if the source does not fail. -/
theorem hasByte_of_ends {r : Reader} (hs : r.Sound) (hf : r.source.failure = none) :
    ∃ r', hasByte r = .ok (!r.unfetched.isEmpty) r' ∧ Takes 0 r r' ∧
      r'.unfetched = r.unfetched ∧ r'.used = r.used ∧ r'.current = r.current := by
  cases hbytes : r.unfetched with
  | nil =>
    obtain ⟨source, hsource, hfailure, hlook⟩ := hasByte_of_nil hbytes
    rw [hf] at hlook
    have hkept : none.toList ++ source.bytes = r.unfetched := by rw [hsource, hbytes]; rfl
    exact ⟨_, hlook, (Takes.refl hs).withBytes hkept hfailure, hkept.trans hbytes, rfl, rfl⟩
  | cons b bs =>
    obtain ⟨source, lookahead, hlook, hkept, hfailure⟩ := hasByte_of_cons hbytes
    exact ⟨_, hlook, (Takes.refl hs).withBytes hkept hfailure, hkept.trans hbytes, rfl, rfl⟩

/-- The end of the stream is where no bit remains. -/
theorem isExhausted_of_ends {r : Reader} (hs : r.Sound) (hf : r.source.failure = none) :
    ∃ r', isExhausted r = .ok (decide (r.remaining = 0)) r' ∧ Takes 0 r r' := by
  by_cases hused : r.used < 8
  · refine ⟨r, ?_, Takes.refl hs⟩
    have hpos : ¬ r.remaining = 0 := by
      rw [remaining_eq]
      simp only [buffered]
      omega
    simp [isExhausted, bind, EStateM.bind, hused, hpos]
  · obtain ⟨r', hbyte, htakes, -⟩ := hasByte_of_ends hs hf
    refine ⟨r', ?_, htakes⟩
    have hzero : decide (r.remaining = 0) = r.unfetched.isEmpty := by
      rw [remaining_eq, Bool.eq_iff_iff, decide_eq_true_eq, List.isEmpty_iff_length_eq_zero]
      simp only [buffered]
      omega
    simp only [isExhausted, bind_of_ok (get_apply r), hused, if_false, bind_of_ok hbyte, hzero]
    simp

/-- Where an element of `width` bits cannot begin, the bits ahead have to be zeros that fill up a
byte. -/
theorem atEndFor_of_ends {r : Reader} (hs : r.Sound) (hf : r.source.failure = none)
    (width : Nat) (order : BitOrder) :
    ∃ r', Takes 0 r r' ∧
      atEndFor width order r =
        if 8 ≤ r.remaining ∨ width ≤ r.remaining then .ok false r'
        else if r.ahead order = List.replicate r.remaining false then .ok true r'
        else .error (.paddingNotZero r.remaining) r' := by
  obtain ⟨r', hbyte, htakes, hsame, hused, hcurrent⟩ := hasByte_of_ends hs hf
  have hbuffered : r'.buffered = r.buffered := by rw [buffered, hused, buffered]
  have hlt := hs.buffered_lt
  refine ⟨r', htakes, ?_⟩
  cases hbytes : r.unfetched with
  | cons b bs =>
    rw [hbytes] at hbyte
    have hmore : 8 ≤ r.remaining := by
      rw [remaining_eq, hbytes, List.length_cons]
      omega
    rw [if_pos (Or.inl hmore)]
    simp [atEndFor, bind, EStateM.bind, hbyte]
  | nil =>
    rw [hbytes] at hbyte
    have hremaining : r.remaining = r.buffered := by
      rw [remaining_eq, hbytes, List.length_nil]
      omega
    rw [hremaining]
    by_cases hwidth : width ≤ r.buffered
    · rw [if_pos (Or.inr hwidth)]
      simp [atEndFor, bind, EStateM.bind, hbyte, hbuffered, hwidth]
    -- Only bits of the byte at hand are left, and they are looked at as one number.
    · have hahead : r.ahead order =
          Bits.ofNat ((order.logical r.current).toNat / 2 ^ r.used) r.buffered := by
        rw [ahead, hbytes, Bits.drop_ofNat, BitOrder.stream_nil, List.append_nil, buffered]
      have hbound : (order.logical r.current).toNat / 2 ^ r.used < 2 ^ r.buffered := by
        have hle := hs.used_le
        rw [Nat.div_lt_iff_lt_mul (Nat.two_pow_pos _), ← Nat.pow_add]
        rw [show r.buffered + r.used = 8 by rw [buffered]; omega]
        exact (order.logical r.current).toNat_lt
      have hzero := Bits.ofNat_eq_replicate_iff hbound
      rw [← hahead] at hzero
      rw [if_neg (by omega)]
      by_cases hpadding : (order.logical r.current).toNat / 2 ^ r.used = 0
      · rw [if_pos (hzero.mpr hpadding)]
        simp [atEndFor, bind, EStateM.bind, hbyte, hbuffered, hwidth, hcurrent, hused, hpadding]
      · have hpos : 0 < r.buffered := by
          rcases Nat.eq_zero_or_pos r.buffered with h | h
          · rw [h, Nat.pow_zero] at hbound
            exact absurd (Nat.lt_one_iff.mp hbound) hpadding
          · exact h
        rw [if_neg fun h => hpadding (hzero.mp h)]
        simp [atEndFor, bind, EStateM.bind, hbyte, hbuffered, hwidth, hcurrent, hused, hpadding,
          hpos]

/-- A look for the end moves nothing, whether the source ends or fails, and where an element can begin
there is a bit for it. -/
theorem atEndFor_eq_ok {r r' : Reader} (hs : r.Sound) {width : Nat} {order : BitOrder} {atEnd : Bool}
    (h : atEndFor width order r = .ok atEnd r') :
    Takes 0 r r' ∧ (atEnd = false → 8 ≤ r.remaining ∨ width ≤ r.remaining) := by
  cases hfailure : r.source.failure with
  | none =>
    obtain ⟨r₁, htakes, hat⟩ := atEndFor_of_ends hs hfailure width order
    rw [h] at hat
    split at hat
    · rename_i hroom
      cases hat
      exact ⟨htakes, fun _ => hroom⟩
    · split at hat <;> cases hat
      exact ⟨htakes, nofun⟩
  | some message =>
    cases hbytes : r.unfetched with
    | nil =>
      obtain ⟨source, -, -, hbyte⟩ := hasByte_of_nil hbytes
      rw [hfailure] at hbyte
      rw [atEndFor, bind_of_error hbyte] at h
      cases h
    | cons b bs =>
      obtain ⟨source, lookahead, hbyte, hkept, hsame⟩ := hasByte_of_cons hbytes
      rw [atEndFor, bind_of_ok hbyte] at h
      cases h
      refine ⟨(Takes.refl hs).withBytes hkept hsame, fun _ => .inl ?_⟩
      rw [remaining_eq, hbytes, List.length_cons]
      omega

end Reader

end RecordLayout
