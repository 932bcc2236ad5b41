import RecordLayout.Proofs.Outcome
import RecordLayout.Text.Utf8

/-!
# UTF-8 there and back

Reading gives back what was encoded, and only the encoding of a text reads as that text. Both follow
from one description of the bytes behind a leading byte, which the reader checks one at a time.
-/

namespace RecordLayout.Text.Utf8

/-- The bytes that finish a character that has begun, and its number. -/
def Begun.Completes (p : Begun) : List UInt8 → Nat → Prop
  | [], _ => False
  | b :: tail, v =>
    (p.low ≤ b.toNat ∧ b.toNat ≤ p.high) ∧
      if p.owed = 1 then tail = [] ∧ v = p.bits * 64 + (b.toNat - 0x80)
      else
        Begun.Completes
          ⟨p.start, p.got + 1, p.bits * 64 + (b.toNat - 0x80), p.owed - 1, 0x80, 0xBF⟩ tail v

/-- The bytes that complete a character are read as the character. -/
theorem Begun.Completes.decodeFrom {p : Begun} {tail : List UInt8} {v : Nat}
    (h : p.Completes tail v) (index : Nat) (rest : List UInt8) :
    decodeFrom index (some p) (tail ++ rest) =
      (decodeFrom (index + tail.length) none rest).map (Char.ofNat v :: ·) := by
  induction tail generalizing p index with
  | nil => exact h.elim
  | cons b tail ih =>
    obtain ⟨hrange, h⟩ := h
    rw [List.cons_append, Utf8.decodeFrom]
    simp only [hrange, and_self, if_true]
    by_cases howed : p.owed = 1
    · simp only [howed, if_true] at h ⊢
      rw [h.1, h.2]
      rfl
    · simp only [howed, if_false] at h ⊢
      have hlength : index + 1 + tail.length = index + (b :: tail).length := by
        rw [List.length_cons]
        omega
      exact (ih h _).trans (by rw [hlength])

/-- A character that was begun and read was completed by the bytes in front. -/
theorem decodeFrom_begun_eq_ok {p : Begun} {index : Nat} {bs : List UInt8} {cs : List Char}
    (h : decodeFrom index (some p) bs = .ok cs) :
    ∃ tail rest v cs', bs = tail ++ rest ∧ p.Completes tail v ∧
      decodeFrom (index + tail.length) none rest = .ok cs' ∧ cs = Char.ofNat v :: cs' := by
  induction bs generalizing p index with
  | nil => simp [decodeFrom] at h
  | cons b bs ih =>
    rw [decodeFrom] at h
    simp only at h
    split at h
    · rename_i hrange
      by_cases howed : p.owed = 1
      · simp only [howed, if_true] at h
        cases hrest : decodeFrom (index + 1) none bs with
        | error e =>
          rw [hrest] at h
          cases h
        | ok cs' =>
          rw [hrest] at h
          cases h
          exact ⟨[b], bs, _, cs', rfl, ⟨hrange, by simp [howed]⟩, hrest, rfl⟩
      · simp only [howed, if_false] at h
        obtain ⟨tail, rest, v, cs', rfl, hcompletes, hrest, rfl⟩ := ih h
        refine ⟨b :: tail, rest, v, cs', rfl, ⟨hrange, by simpa [howed] using hcompletes⟩, ?_, rfl⟩
        rw [List.length_cons, Nat.add_comm tail.length, ← Nat.add_assoc]
        exact hrest
    · cases h

/-! ## One character -/

theorem toNat_ofNat_of_valid {v : Nat} (h : v.isValidChar) : (Char.ofNat v).val.toNat = v := by
  simp [Char.ofNat, h, Char.ofNatAux]

theorem uint8_ofNat_eq {n : Nat} {b : UInt8} (h : n = b.toNat) : UInt8.ofNat n = b := by
  rw [h, UInt8.ofNat_toNat]

/-- Two bytes with the bits of a character are its encoding. -/
theorem encodeChar_two {v : Nat} {b x : UInt8} (h : v.isValidChar) (hlow : 0x7f < v)
    (hhigh : v ≤ 0x7ff) (hb : v / 64 % 0x20 + 0xc0 = b.toNat) (hx : v % 0x40 + 0x80 = x.toNat) :
    String.utf8EncodeChar (Char.ofNat v) = [b, x] := by
  unfold String.utf8EncodeChar
  simp only [toNat_ofNat_of_valid h]
  rw [if_neg (by omega), if_pos hhigh, uint8_ofNat_eq hb, uint8_ofNat_eq hx]

theorem encodeChar_three {v : Nat} {b x y : UInt8} (h : v.isValidChar) (hlow : 0x7ff < v)
    (hhigh : v ≤ 0xffff) (hb : v / 4096 % 0x10 + 0xe0 = b.toNat)
    (hx : v / 64 % 0x40 + 0x80 = x.toNat) (hy : v % 0x40 + 0x80 = y.toNat) :
    String.utf8EncodeChar (Char.ofNat v) = [b, x, y] := by
  unfold String.utf8EncodeChar
  simp only [toNat_ofNat_of_valid h]
  rw [if_neg (by omega), if_neg (by omega), if_pos hhigh, uint8_ofNat_eq hb, uint8_ofNat_eq hx,
    uint8_ofNat_eq hy]

theorem encodeChar_four {v : Nat} {b x y z : UInt8} (h : v.isValidChar) (hlow : 0xffff < v)
    (hb : v / 262144 % 0x08 + 0xf0 = b.toNat) (hx : v / 4096 % 0x40 + 0x80 = x.toNat)
    (hy : v / 64 % 0x40 + 0x80 = y.toNat) (hz : v % 0x40 + 0x80 = z.toNat) :
    String.utf8EncodeChar (Char.ofNat v) = [b, x, y, z] := by
  unfold String.utf8EncodeChar
  simp only [toNat_ofNat_of_valid h]
  rw [if_neg (by omega), if_neg (by omega), if_neg (by omega), uint8_ofNat_eq hb,
    uint8_ofNat_eq hx, uint8_ofNat_eq hy, uint8_ofNat_eq hz]

/-- One byte that is owed lies in the range that the first byte leaves. -/
theorem Begun.completes_one {p : Begun} {tail : List UInt8} {v : Nat} (howed : p.owed = 1)
    (h : p.Completes tail v) :
    ∃ x : UInt8, tail = [x] ∧ p.low ≤ x.toNat ∧ x.toNat ≤ p.high ∧
      v = p.bits * 64 + (x.toNat - 0x80) := by
  rcases tail with _ | ⟨x, tail⟩
  · exact h.elim
  · obtain ⟨hrange, h⟩ := h
    rw [if_pos howed] at h
    exact ⟨x, by rw [h.1], hrange.1, hrange.2, h.2⟩

/-- Where more is owed, the next byte lies in that range and any other in that of all bytes that
follow. -/
theorem Begun.completes_more {p : Begun} {tail : List UInt8} {v : Nat} (howed : p.owed ≠ 1)
    (h : p.Completes tail v) :
    ∃ (x : UInt8) (more : List UInt8), tail = x :: more ∧ p.low ≤ x.toNat ∧ x.toNat ≤ p.high ∧
      Begun.Completes
        ⟨p.start, p.got + 1, p.bits * 64 + (x.toNat - 0x80), p.owed - 1, 0x80, 0xBF⟩ more v := by
  rcases tail with _ | ⟨x, tail⟩
  · exact h.elim
  · obtain ⟨hrange, h⟩ := h
    rw [if_neg howed] at h
    exact ⟨x, tail, rfl, hrange.1, hrange.2, h⟩

theorem Begun.completes_two {p : Begun} {tail : List UInt8} {v : Nat} (howed : p.owed = 2)
    (h : p.Completes tail v) :
    ∃ x y : UInt8, tail = [x, y] ∧ p.low ≤ x.toNat ∧ x.toNat ≤ p.high ∧
      (0x80 ≤ y.toNat ∧ y.toNat ≤ 0xBF) ∧
      v = (p.bits * 64 + (x.toNat - 0x80)) * 64 + (y.toNat - 0x80) := by
  obtain ⟨x, more, rfl, hx, hx', h⟩ := completes_more (by omega) h
  obtain ⟨y, rfl, hy, hy', hv⟩ := completes_one (by simp [howed]) h
  exact ⟨x, y, rfl, hx, hx', ⟨hy, hy'⟩, hv⟩

theorem Begun.completes_three {p : Begun} {tail : List UInt8} {v : Nat} (howed : p.owed = 3)
    (h : p.Completes tail v) :
    ∃ x y z : UInt8, tail = [x, y, z] ∧ p.low ≤ x.toNat ∧ x.toNat ≤ p.high ∧
      (0x80 ≤ y.toNat ∧ y.toNat ≤ 0xBF) ∧ (0x80 ≤ z.toNat ∧ z.toNat ≤ 0xBF) ∧
      v = ((p.bits * 64 + (x.toNat - 0x80)) * 64 + (y.toNat - 0x80)) * 64 +
        (z.toNat - 0x80) := by
  obtain ⟨x, more, rfl, hx, hx', h⟩ := completes_more (by omega) h
  obtain ⟨y, z, rfl, hy, hy', hz, hv⟩ := completes_two (by simp [howed]) h
  exact ⟨x, y, z, rfl, hx, hx', ⟨hy, hy'⟩, hz, hv⟩

/-- Leading bytes by the length of the character. The second byte has a narrower range where
otherwise a shorter form, a surrogate or a number that is too large could arise. -/
theorem Begun.ofLead_eq (start b : Nat) :
    ofLead start b =
      if 0xC2 ≤ b ∧ b ≤ 0xDF then some ⟨start, 1, b - 0xC0, 1, 0x80, 0xBF⟩
      else if 0xE0 ≤ b ∧ b ≤ 0xEF then
        some ⟨start, 1, b - 0xE0, 2, if b = 0xE0 then 0xA0 else 0x80,
          if b = 0xED then 0x9F else 0xBF⟩
      else if 0xF0 ≤ b ∧ b ≤ 0xF4 then
        some ⟨start, 1, b - 0xF0, 3, if b = 0xF0 then 0x90 else 0x80,
          if b = 0xF4 then 0x8F else 0xBF⟩
      else none := by
  unfold ofLead
  by_cases hE0 : b = 0xE0
  · simp [hE0]
  by_cases hED : b = 0xED
  · simp [hED]
  by_cases hF0 : b = 0xF0
  · simp [hF0]
  by_cases hF4 : b = 0xF4
  · simp [hF4]
  simp only [hE0, hED, hF0, hF4, if_false]
  have hthree : (0xE1 ≤ b ∧ b ≤ 0xEF) = (0xE0 ≤ b ∧ b ≤ 0xEF) := by
    rw [eq_iff_iff]
    omega
  have hfour : (0xF1 ≤ b ∧ b ≤ 0xF3) = (0xF0 ≤ b ∧ b ≤ 0xF4) := by
    rw [eq_iff_iff]
    omega
  simp only [hthree, hfour]

/-- The bytes behind a leading byte are those of the character with their number. -/
theorem encodeChar_of_completes {start : Nat} {b : UInt8} {p : Begun} {tail : List UInt8} {v : Nat}
    (hlead : Begun.ofLead start b.toNat = some p) (h : p.Completes tail v) :
    String.utf8EncodeChar (Char.ofNat v) = b :: tail := by
  rw [Begun.ofLead_eq] at hlead
  split at hlead
  · cases hlead
    obtain ⟨x, rfl, hx, hx', hv⟩ := Begun.completes_one rfl h
    simp only at hx hx' hv
    exact encodeChar_two (Or.inl (by omega)) (by omega) (by omega) (by omega) (by omega)
  split at hlead
  · cases hlead
    obtain ⟨x, y, rfl, hx, hx', hy, hv⟩ := Begun.completes_two rfl h
    simp only at hx hx' hv
    have hvalid : v.isValidChar := by
      unfold Nat.isValidChar
      split at hx <;> split at hx' <;> omega
    refine encodeChar_three hvalid ?_ ?_ ?_ ?_ ?_ <;> split at hx <;> split at hx' <;> omega
  split at hlead
  · cases hlead
    obtain ⟨x, y, z, rfl, hx, hx', hy, hz, hv⟩ := Begun.completes_three rfl h
    simp only at hx hx' hv
    have hvalid : v.isValidChar := by
      unfold Nat.isValidChar
      split at hx <;> split at hx' <;> omega
    refine encodeChar_four hvalid ?_ ?_ ?_ ?_ ?_ <;> split at hx <;> split at hx' <;> omega
  · cases hlead

theorem toNat_uint8_ofNat {n : Nat} (h : n < 256) : (UInt8.ofNat n).toNat = n := by
  rw [UInt8.toNat_ofNat', Nat.mod_eq_of_lt h]

/-- A character of several bytes is a leading byte and the bytes that complete it. -/
theorem completes_of_encodeChar (start : Nat) {c : Char} (hc : 0x80 ≤ c.val.toNat) :
    ∃ (b : UInt8) (tail : List UInt8), String.utf8EncodeChar c = b :: tail ∧ 0x80 ≤ b.toNat ∧
      ∃ p, Begun.ofLead start b.toNat = some p ∧ p.Completes tail c.val.toNat := by
  have hvalid : c.val.toNat.isValidChar := c.valid
  unfold String.utf8EncodeChar
  generalize c.val.toNat = v at hc hvalid
  unfold Nat.isValidChar at hvalid
  simp only [show ¬ v ≤ 0x7f by omega, if_false]
  split
  · have hb := toNat_uint8_ofNat (show v / 64 % 0x20 + 0xc0 < 256 by omega)
    have hx := toNat_uint8_ofNat (show v % 0x40 + 0x80 < 256 by omega)
    refine ⟨_, _, rfl, by omega, _, (Begun.ofLead_eq _ _).trans (if_pos (by omega)), ?_⟩
    simp only [Begun.Completes, hb, hx, if_true, true_and]
    omega
  have hx := toNat_uint8_ofNat (show v / 64 % 0x40 + 0x80 < 256 by omega)
  have hy := toNat_uint8_ofNat (show v % 0x40 + 0x80 < 256 by omega)
  split
  · have hb := toNat_uint8_ofNat (show v / 4096 % 0x10 + 0xe0 < 256 by omega)
    refine ⟨_, _, rfl, by omega, _,
      (Begun.ofLead_eq _ _).trans ((if_neg (by omega)).trans (if_pos (by omega))), ?_⟩
    simp only [Begun.Completes, hb, hx, hy, if_true, true_and]
    refine ⟨⟨?_, ?_⟩, ?_⟩
    · split <;> omega
    · split <;> omega
    · simp only [show (2 : Nat) ≠ 1 by decide, if_false]
      omega
  · have hb := toNat_uint8_ofNat (show v / 262144 % 0x08 + 0xf0 < 256 by omega)
    have hw := toNat_uint8_ofNat (show v / 4096 % 0x40 + 0x80 < 256 by omega)
    refine ⟨_, _, rfl, by omega, _, (Begun.ofLead_eq _ _).trans
      ((if_neg (by omega)).trans ((if_neg (by omega)).trans (if_pos (by omega)))), ?_⟩
    simp only [Begun.Completes, hb, hw, hx, hy, if_true, true_and]
    refine ⟨⟨?_, ?_⟩, ?_⟩
    · split <;> omega
    · split <;> omega
    · simp only [show (3 : Nat) ≠ 1 by decide, show (3 : Nat) - 1 ≠ 1 by decide, if_false]
      omega

/-! ## Texts -/

/-- Reading a character of any length. -/
theorem decodeFrom_encodeChar (index : Nat) (c : Char) (rest : List UInt8) :
    decodeFrom index none (String.utf8EncodeChar c ++ rest) =
      (decodeFrom (index + (String.utf8EncodeChar c).length) none rest).map (c :: ·) := by
  by_cases hc : 0x80 ≤ c.val.toNat
  · obtain ⟨b, tail, hbytes, hb, p, hlead, hcompletes⟩ := completes_of_encodeChar index hc
    rw [hbytes, List.cons_append, decodeFrom]
    simp only [Nat.not_lt.mpr hb, if_false, hlead]
    rw [hcompletes.decodeFrom, List.length_cons, Nat.add_right_comm, Nat.add_assoc]
    have hchar : Char.ofNat c.val.toNat = c := Char.ofNat_toNat c
    rw [hchar]
  · have hbytes : String.utf8EncodeChar c = [UInt8.ofNat c.val.toNat] := by
      unfold String.utf8EncodeChar
      simp only
      rw [if_pos (by omega)]
    have hb := toNat_uint8_ofNat (show c.val.toNat < 256 by omega)
    have hchar : Char.ofNat c.val.toNat = c := Char.ofNat_toNat c
    rw [hbytes, List.singleton_append, decodeFrom]
    simp only [hb, show c.val.toNat < 0x80 by omega, if_true, hchar, List.length_singleton]

/-- Encoded characters are read as they were, by induction over them. -/
theorem decodeFrom_encode (index : Nat) (cs : List Char) :
    decodeFrom index none (cs.flatMap String.utf8EncodeChar) = .ok cs := by
  induction cs generalizing index with
  | nil => rfl
  | cons c cs ih =>
    rw [List.flatMap_cons, decodeFrom_encodeChar, ih]
    rfl

/-- Characters that were read have the bytes they were read from. -/
theorem encode_of_decodeFrom {index : Nat} {bs : List UInt8} {cs : List Char}
    (h : decodeFrom index none bs = .ok cs) : cs.flatMap String.utf8EncodeChar = bs := by
  induction hlen : bs.length using Nat.strongRecOn generalizing index bs cs with
  | ind n ih =>
  cases bs with
  | nil =>
    cases h
    rfl
  | cons b bs =>
    rw [List.length_cons] at hlen
    rw [decodeFrom] at h
    split at h
    · rename_i hb
      cases hrest : decodeFrom (index + 1) none bs with
      | error e =>
        rw [hrest] at h
        cases h
      | ok cs' =>
        rw [hrest] at h
        cases h
        have hbytes : String.utf8EncodeChar (Char.ofNat b.toNat) = [b] := by
          unfold String.utf8EncodeChar
          simp only [toNat_ofNat_of_valid (Or.inl (show b.toNat < 0xd800 by omega))]
          rw [if_pos (by omega), UInt8.ofNat_toNat]
        rw [List.flatMap_cons, hbytes, ih _ (by omega) hrest rfl, List.singleton_append]
    · cases hlead : Begun.ofLead index b.toNat with
      | none =>
        rw [hlead] at h
        cases h
      | some p =>
        rw [hlead] at h
        obtain ⟨tail, rest, v, cs', rfl, hcompletes, hrest, rfl⟩ := decodeFrom_begun_eq_ok h
        rw [List.length_append] at hlen
        rw [List.flatMap_cons, encodeChar_of_completes hlead hcompletes,
          ih _ (by omega) hrest rfl, List.cons_append]

/-- An encoded text reads as itself. -/
theorem decode_encode (text : String) : decode (encode text) = .ok text := by
  rw [decode, encode, decodeFrom_encode]
  exact congrArg Except.ok (String.ofList_toList)

/-- Bytes that read as a text are its encoding. -/
theorem encode_of_decode {bs : List UInt8} {text : String} (h : decode bs = .ok text) :
    encode text = bs := by
  rw [decode] at h
  cases hchars : decodeFrom 0 none bs with
  | error e =>
    rw [hchars] at h
    cases h
  | ok cs =>
    rw [hchars] at h
    cases h
    rw [encode, String.toList_ofList]
    exact encode_of_decodeFrom hchars

end RecordLayout.Text.Utf8
