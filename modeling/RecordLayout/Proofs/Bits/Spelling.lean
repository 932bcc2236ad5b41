import RecordLayout.Proofs.Bits.Writing
import RecordLayout.Proofs.Text.Utf8

/-!
# How numbers and texts are spelled

A number of whole bytes and a text have one spelling each. A read accepts nothing but the spelling
of the value it gives, and a write gives the spelling.
-/

namespace RecordLayout

namespace ByteOrder

theorem ofLittleBytes_lt (bs : List UInt8) : ofLittleBytes bs < 256 ^ bs.length := by
  induction bs with
  | nil => simp [ofLittleBytes]
  | cons b bs ih =>
    have hb := b.toNat_lt
    rw [ofLittleBytes, List.length_cons, Nat.pow_succ]
    omega

theorem number_lt (order : ByteOrder) (bs : List UInt8) : order.number bs < 256 ^ bs.length := by
  cases order with
  | little => exact ofLittleBytes_lt bs
  | big => simpa [number] using ofLittleBytes_lt bs.reverse

theorem ofLittleBytes_zeros (count : Nat) : ofLittleBytes (List.replicate count 0) = 0 := by
  induction count with
  | zero => rfl
  | succ count ih =>
    simp only [List.replicate_succ, ofLittleBytes, ih]
    rfl

theorem ofLittleBytes_append_zeros (bs : List UInt8) (count : Nat) :
    ofLittleBytes (bs ++ List.replicate count 0) = ofLittleBytes bs := by
  induction bs with
  | nil => exact ofLittleBytes_zeros count
  | cons b bs ih => rw [List.cons_append, ofLittleBytes, ih, ofLittleBytes]

/-- Zeros in front do not change a number. -/
theorem number_big_zeros (count : Nat) (bs : List UInt8) :
    big.number (List.replicate count 0 ++ bs) = big.number bs := by
  simp [number, ofLittleBytes_append_zeros]

end ByteOrder

namespace Reader

variable {r r' : Reader} {order : BitOrder} {bytes : ByteOrder} {size n : Nat}

/-- A number is read from the bytes that it is written as. -/
theorem readNumber_eq_ok (hs : r.Sound) (h : readNumber size bytes order r = .ok n r') :
    Takes (8 * size) r r' ∧ n < 256 ^ size ∧
      r.ahead order = Bits.ofBytes (bytes.bytes n size) ++ r'.ahead order := by
  obtain ⟨found, r₁, hread, h⟩ := bind_eq_ok.mp h
  cases h
  obtain ⟨htakes, rfl, hahead⟩ := readEach_eq_ok hs hread
  exact ⟨htakes, bytes.number_lt found, by rw [bytes.bytes_number, hahead]⟩

/-- The bytes that a number is written as are read as the number. -/
theorem readNumber_of_ahead (hs : r.Sound) (hn : n < 256 ^ size) {rest : List Bool}
    (h : r.ahead order = Bits.ofBytes (bytes.bytes n size) ++ rest) :
    ∃ r', readNumber size bytes order r = .ok n r' ∧ Takes (8 * size) r r' := by
  obtain ⟨r', hread, htakes⟩ := readEach_of_ahead hs h
  rw [ByteOrder.length_bytes] at hread htakes
  refine ⟨r', ?_, htakes⟩
  rw [readNumber, bind_of_ok hread, ByteOrder.number_bytes, Nat.mod_eq_of_lt hn]
  rfl

end Reader

namespace Writer

/-! ## Texts -/

/-- The bytes of a text behind its length, or of the mark that there is none. -/
def textBytes : Option String → List UInt8
  | none => [0xFF]
  | some text => textLength (Text.Utf8.encode text).length ++ Text.Utf8.encode text

/-- The length of the text can be written. -/
def TextFits (text : Option String) : Prop :=
  ∀ t, text = some t → (Text.Utf8.encode t).length < 2 ^ 32

theorem textLength_of_lt {length : Nat} (h : length < 0x80) :
    textLength length = [.ofNat length] := by
  rw [textLength, if_pos h]

/-- A long length has a mark with the number of its bytes in front of them. -/
theorem textLength_of_le {length : Nat} (h : 0x80 ≤ length) :
    textLength length =
      .ofNat (0x80 + ((ByteOrder.big.bytes length 4).dropWhile (· == 0)).length) ::
        (ByteOrder.big.bytes length 4).dropWhile (· == 0) := by
  rw [textLength, if_neg (by omega)]

theorem textLength_eq_cons (length : Nat) :
    ∃ leading digits, textLength length = leading :: digits := by
  unfold textLength
  split
  · exact ⟨_, _, rfl⟩
  · exact ⟨_, _, rfl⟩

/-- What drops off the front of a number is zero bytes. -/
theorem dropWhile_zeros (bs : List UInt8) :
    bs = List.replicate (bs.length - (bs.dropWhile (· == 0)).length) 0 ++
      bs.dropWhile (· == 0) := by
  induction bs with
  | nil => rfl
  | cons b bs ih =>
    by_cases hb : b = 0
    · have hle := (List.dropWhile_suffix (· == 0) (l := bs)).length_le
      rw [List.dropWhile_cons_of_pos (by simp [hb]), List.length_cons, Nat.succ_sub hle,
        List.replicate_succ, List.cons_append, ← ih, hb]
    · rw [List.dropWhile_cons_of_neg (by simp [hb])]
      simp

/-- The digits of a length do not begin with a zero byte. -/
theorem head?_dropWhile_zeros (bs : List UInt8) : (bs.dropWhile (· == 0)).head? ≠ some 0 := by
  intro h
  have := List.head?_dropWhile_not (· == 0) bs
  rw [h] at this
  simp at this

/-- The digits of a length that is too long for a single byte. -/
theorem digits_spec {length : Nat} (hlow : 0x80 ≤ length) (hhigh : length < 2 ^ 32) :
    ∃ digits : List UInt8, textLength length = .ofNat (0x80 + digits.length) :: digits ∧
      1 ≤ digits.length ∧ digits.length ≤ 4 ∧ digits.head? ≠ some 0 ∧
      ByteOrder.big.number digits = length := by
  have hzeros := dropWhile_zeros (ByteOrder.big.bytes length 4)
  have hnumber : ByteOrder.big.number ((ByteOrder.big.bytes length 4).dropWhile (· == 0)) =
      length := by
    have h := ByteOrder.number_bytes .big length 4
    rw [hzeros, ByteOrder.number_big_zeros] at h
    rw [h]
    exact Nat.mod_eq_of_lt (by omega)
  refine ⟨_, textLength_of_le hlow, ?_, ?_, head?_dropWhile_zeros _, hnumber⟩
  · rw [Nat.one_le_iff_ne_zero]
    intro hlen
    rw [List.length_eq_zero_iff.mp hlen] at hnumber
    simp only [ByteOrder.number, List.reverse_nil, ByteOrder.ofLittleBytes] at hnumber
    omega
  · have h := (List.dropWhile_suffix (· == 0) (l := ByteOrder.big.bytes length 4)).length_le
    rwa [ByteOrder.length_bytes] at h

/-- The digits of a number without the zeros in front. -/
theorem dropWhile_bytes_number {digits : List UInt8} (h : digits.length ≤ 4) :
    (ByteOrder.big.bytes (ByteOrder.big.number digits) 4).dropWhile (· == 0) =
      digits.dropWhile (· == 0) := by
  have hbytes := ByteOrder.bytes_number .big (List.replicate (4 - digits.length) 0 ++ digits)
  rw [ByteOrder.number_big_zeros, List.length_append, List.length_replicate,
    show 4 - digits.length + digits.length = 4 by omega] at hbytes
  rw [hbytes, List.dropWhile_append_of_pos (by simp)]

/-- Digits that do not begin with a zero are those that their number is written with. -/
theorem textLength_of_digits {digits : List UInt8} (hlen : digits.length ≤ 4)
    (hhead : digits.head? ≠ some 0) (hlow : 0x80 ≤ ByteOrder.big.number digits) :
    textLength (ByteOrder.big.number digits) = .ofNat (0x80 + digits.length) :: digits := by
  have hdrop : digits.dropWhile (· == 0) = digits := by
    cases digits with
    | nil => rfl
    | cons d digits =>
      rw [List.dropWhile_cons_of_neg]
      intro hd
      exact hhead (by rw [List.head?_cons, beq_iff_eq.mp hd])
  rw [textLength_of_le hlow, dropWhile_bytes_number hlen, hdrop]

/-- A text that fits is written as its bytes. -/
theorem writeText_of_ready {w : Writer} {order : BitOrder} (h : w.Ready order)
    {text : Option String} (hfits : TextFits text) :
    ∃ w', writeText text order w = .ok () w' ∧
      Writes order (Bits.ofBytes (textBytes text)) w w' := by
  cases text with
  | none =>
    obtain ⟨w', hwrite, hwrites⟩ := writeByte_of_ready h 0xFF
    refine ⟨w', hwrite, ?_⟩
    rwa [textBytes, Bits.ofBytes_cons, Bits.ofBytes_nil, List.append_nil]
  | some t =>
    have hlen := hfits t rfl
    obtain ⟨w₁, hlength, hwrites⟩ :=
      writeBytes_of_ready h (textLength (Text.Utf8.encode t).length)
    obtain ⟨w₂, hbody, hwrites'⟩ := writeBytes_of_ready hwrites.ready (Text.Utf8.encode t)
    refine ⟨w₂, ?_, ?_⟩
    · simp only [writeText, Nat.not_le.mpr hlen, if_false]
      exact (bind_of_ok hlength).trans hbody
    · rw [textBytes, Bits.ofBytes_append]
      exact hwrites.trans hwrites'

/-- Only a text whose length can be written is written. -/
theorem fits_of_writeText {w w' : Writer} {order : BitOrder} {text : Option String}
    (h : writeText text order w = .ok () w') : TextFits text := by
  rintro t rfl
  simp only [writeText] at h
  split at h
  · obtain ⟨_, _, hthrow, -⟩ := bind_eq_ok.mp h
    cases hthrow
  · omega

/-- A number is written as its bytes in the order of the field. -/
theorem writeNumber_of_ready {w : Writer} {order : BitOrder} (h : w.Ready order)
    (n size : Nat) (bytes : ByteOrder) :
    ∃ w', writeNumber n size bytes order w = .ok () w' ∧
      Writes order (Bits.ofBytes (bytes.bytes n size)) w w' :=
  writeBytes_of_ready h (bytes.bytes n size)

end Writer

namespace Reader

variable {r r' : Reader} {order : BitOrder}

/-- The bytes of a text length, taken apart. -/
theorem readTextLength_eq_ok {leading : UInt8} {length : Nat} (hs : r.Sound)
    (h : readTextLength leading order r = .ok length r') :
    ∃ digits : List UInt8, Writer.textLength length = leading :: digits ∧ length < 2 ^ 32 ∧
      Takes (8 * digits.length) r r' ∧ r.ahead order = Bits.ofBytes digits ++ r'.ahead order := by
  unfold readTextLength at h
  split at h
  · rename_i hlead
    cases h
    have hlt : leading.toNat < 0x80 := UInt8.lt_iff_toNat_lt.mp hlead
    refine ⟨[], ?_, by omega, Takes.refl hs, rfl⟩
    rw [Writer.textLength_of_lt hlt, UInt8.ofNat_toNat]
  split at h
  · rename_i hlead
    obtain ⟨found, r₁, hread, h⟩ := bind_eq_ok.mp h
    obtain ⟨htakes, hlen, hahead⟩ := readEach_eq_ok hs hread
    simp only at h
    split at h
    · obtain ⟨_, _, hthrow, -⟩ := bind_eq_ok.mp h
      cases hthrow
    · rename_i hlong
      cases h
      have hlow : 0x81 ≤ leading.toNat := UInt8.le_iff_toNat_le.mp hlead.1
      have hhigh : leading.toNat ≤ 0x84 := UInt8.le_iff_toNat_le.mp hlead.2
      have hleading : UInt8.ofNat (0x80 + found.length) = leading := by
        rw [hlen, show 0x80 + (leading.toNat - 0x80) = leading.toNat by omega, UInt8.ofNat_toNat]
      have hnumber := ByteOrder.big.number_lt found
      have hpow : (256 : Nat) ^ found.length ≤ 256 ^ 4 :=
        Nat.pow_le_pow_right (by decide) (by omega)
      rw [not_or] at hlong
      refine ⟨found, ?_, by omega, by rwa [hlen], hahead⟩
      rw [Writer.textLength_of_digits (by omega) hlong.2 (by omega), hleading]
  · cases h

/-- The length behind a byte that says how many digits it has: whether it is taken depends on the
digits alone. -/
theorem readTextLength_of_digits (hs : r.Sound) {digits : List UInt8} {rest : List Bool}
    (hone : 1 ≤ digits.length) (hfour : digits.length ≤ 4)
    (h : r.ahead order = Bits.ofBytes digits ++ rest) :
    UInt8.ofNat (0x80 + digits.length) ≠ 0xFF ∧ ∃ r', Takes (8 * digits.length) r r' ∧
      readTextLength (.ofNat (0x80 + digits.length)) order r =
        if ByteOrder.big.number digits < 0x80 ∨ digits.head? = some 0 then
          .error (.longTextLength (ByteOrder.big.number digits)) r'
        else .ok (ByteOrder.big.number digits) r' := by
  have hbyte : (UInt8.ofNat (0x80 + digits.length)).toNat = 0x80 + digits.length := by
    rw [UInt8.toNat_ofNat', Nat.mod_eq_of_lt (by omega)]
  have hshort : ¬ UInt8.ofNat (0x80 + digits.length) < 0x80 := by
    rw [UInt8.lt_iff_toNat_lt, hbyte]
    simp only [UInt8.reduceToNat]
    omega
  have hlong : 0x81 ≤ UInt8.ofNat (0x80 + digits.length) ∧
      UInt8.ofNat (0x80 + digits.length) ≤ 0x84 := by
    rw [UInt8.le_iff_toNat_le, UInt8.le_iff_toNat_le, hbyte]
    simp only [UInt8.reduceToNat]
    omega
  obtain ⟨r', hread, htakes⟩ := readEach_of_ahead hs h
  refine ⟨fun hff => ?_, r', htakes, ?_⟩
  · rw [hff] at hbyte
    simp only [UInt8.reduceToNat] at hbyte
    omega
  · rw [readTextLength, if_neg hshort, if_pos hlong, hbyte,
      show 0x80 + digits.length - 0x80 = digits.length by omega, bind_of_ok hread]
    by_cases hlonger : ByteOrder.big.number digits < 0x80 ∨ digits.head? = some 0
    · simp only [hlonger, if_true]
      rfl
    · simp only [hlonger, if_false]
      rfl

/-- The digits of a length are read as the length, which is not refused for being long. -/
theorem readTextLength_of_ahead {length : Nat} (hs : r.Sound) (hlt : length < 2 ^ 32)
    {leading : UInt8} {digits : List UInt8} {rest : List Bool}
    (hlength : Writer.textLength length = leading :: digits)
    (h : r.ahead order = Bits.ofBytes digits ++ rest) :
    leading ≠ 0xFF ∧ ∃ r', readTextLength leading order r = .ok length r' ∧
      Takes (8 * digits.length) r r' := by
  by_cases hshort : length < 0x80
  · rw [Writer.textLength_of_lt hshort] at hlength
    cases hlength
    have hbyte : (UInt8.ofNat length).toNat = length := by
      rw [UInt8.toNat_ofNat', Nat.mod_eq_of_lt (by omega)]
    have hlead : UInt8.ofNat length < 0x80 := by
      rw [UInt8.lt_iff_toNat_lt, hbyte]
      exact hshort
    refine ⟨fun hff => ?_, r, ?_, Takes.refl hs⟩
    · rw [hff] at hbyte
      simp only [UInt8.reduceToNat] at hbyte
      omega
    · rw [readTextLength, if_pos hlead, hbyte]
      rfl
  · obtain ⟨digits', hspell, hlen, hlen', hhead, hnumber⟩ :=
      Writer.digits_spec (show 0x80 ≤ length by omega) hlt
    rw [hlength, List.cons.injEq] at hspell
    obtain ⟨rfl, rfl⟩ := hspell
    obtain ⟨hff, r', htakes, hread⟩ := readTextLength_of_digits hs hlen hlen' h
    refine ⟨hff, r', ?_, htakes⟩
    rw [hread, if_neg (by rw [not_or]; exact ⟨by omega, hhead⟩), hnumber]

/-- A text that is read has the one spelling of that text in front. -/
theorem readText_eq_ok {text : Option String} (hs : r.Sound)
    (h : readText order r = .ok text r') :
    Takes (8 * (Writer.textBytes text).length) r r' ∧ Writer.TextFits text ∧
      r.ahead order = Bits.ofBytes (Writer.textBytes text) ++ r'.ahead order := by
  unfold readText at h
  obtain ⟨leading, r₁, hleading, h⟩ := bind_eq_ok.mp h
  obtain ⟨htakes, hahead⟩ := readByte_eq_ok hs hleading
  split at h
  · rename_i hff
    cases h
    refine ⟨htakes, by simp [Writer.TextFits], ?_⟩
    rw [Writer.textBytes, Bits.ofBytes_cons, Bits.ofBytes_nil, List.append_nil, ← hff, hahead]
  · obtain ⟨length, r₂, hlength, h⟩ := bind_eq_ok.mp h
    obtain ⟨digits, hspell, hlt, htakes', hahead'⟩ := readTextLength_eq_ok htakes.sound hlength
    obtain ⟨found, r₃, hbody, h⟩ := bind_eq_ok.mp h
    obtain ⟨htakes'', hlen, hahead''⟩ := readBytes_eq_ok htakes'.sound hbody
    cases hdecode : Text.Utf8.decode found with
    | error fault =>
      rw [hdecode] at h
      cases h
    | ok t =>
      rw [hdecode] at h
      cases h
      have hencode := Text.Utf8.encode_of_decode hdecode
      have hbytes : Writer.textBytes (some t) = leading :: (digits ++ found) := by
        rw [Writer.textBytes, hencode, hlen, hspell, List.cons_append]
      refine ⟨?_, ?_, ?_⟩
      · rw [hbytes, List.length_cons, List.length_append]
        have := (htakes.trans htakes').trans htakes''
        rwa [show 8 + 8 * digits.length + 8 * length =
          8 * (digits.length + found.length + 1) by omega] at this
      · rintro t' ⟨⟩
        rwa [hencode, hlen]
      · rw [hbytes, Bits.ofBytes_cons, Bits.ofBytes_append, hahead, hahead', hahead'']
        simp only [List.append_assoc]

/-- The bytes of a text are read as the text. -/
theorem readText_of_ahead {text : Option String} (hs : r.Sound) (hfits : Writer.TextFits text)
    {rest : List Bool} (h : r.ahead order = Bits.ofBytes (Writer.textBytes text) ++ rest) :
    ∃ r', readText order r = .ok text r' ∧ Takes (8 * (Writer.textBytes text).length) r r' := by
  cases text with
  | none =>
    rw [Writer.textBytes, Bits.ofBytes_cons, Bits.ofBytes_nil, List.append_nil] at h
    obtain ⟨r', hread, htakes⟩ := readByte_of_ahead hs h
    refine ⟨r', ?_, htakes⟩
    rw [readText, bind_of_ok hread]
    rfl
  | some t =>
    have hlt := hfits t rfl
    obtain ⟨leading, digits, hspell⟩ :=
      Writer.textLength_eq_cons (Text.Utf8.encode t).length
    rw [Writer.textBytes, hspell, List.cons_append] at h ⊢
    rw [Bits.ofBytes_cons, Bits.ofBytes_append, List.append_assoc, List.append_assoc] at h
    obtain ⟨r₁, hread, htakes, h₁⟩ := readByte_past hs h
    obtain ⟨hff, r₂, hlength, htakes'⟩ := readTextLength_of_ahead htakes.sound hlt hspell h₁
    have h₂ := Consumes.rest_eq ((Bits.length_ofBytes digits).symm ▸ htakes'.toConsumes) h₁
    obtain ⟨r₃, hbody, htakes''⟩ := readBytes_of_ahead htakes'.sound h₂
    refine ⟨r₃, ?_, ?_⟩
    · rw [readText, bind_of_ok hread]
      simp only [hff, if_false]
      rw [bind_of_ok hlength, bind_of_ok hbody, Text.Utf8.decode_encode]
      rfl
    · rw [List.length_cons, List.length_append, Nat.mul_succ, Nat.add_comm, Nat.mul_add,
        ← Nat.add_assoc]
      exact (htakes.trans htakes').trans htakes''

end Reader

end RecordLayout
