/-!
# Orders of bits and bytes

A stream hands out the bits of a byte in logical order: logical bit zero comes first and is the
least significant bit of the value being put together. The bit order says which physical bit of a
byte that is; turning a physical byte into its logical byte is its own inverse. The byte order says
which byte of a number of several bytes comes first.
-/

namespace RecordLayout

-- Powers are those of the standard library, whatever a proof imports.
attribute [instance (high), default_instance (high+1)] instPowNat

/-- Which byte of a number comes first. -/
inductive ByteOrder where
  | big
  | little
  deriving DecidableEq, Repr, Inhabited

/-- Which physical bit of a byte comes first. -/
inductive BitOrder where
  /-- The least significant one. -/
  | lsb0
  /-- The most significant one. -/
  | msb0
  deriving DecidableEq, Repr, Inhabited

namespace Bits

/-- The number whose bits are given, the least significant first. -/
def toNat : List Bool → Nat
  | [] => 0
  | b :: rest => b.toNat + 2 * toNat rest

/-- The lowest `width` bits of a number, the least significant first. -/
def ofNat (n : Nat) : (width : Nat) → List Bool
  | 0 => []
  | width + 1 => n.testBit 0 :: ofNat (n / 2) width

@[simp] theorem length_ofNat (n width : Nat) : (ofNat n width).length = width := by
  induction width generalizing n with
  | zero => rfl
  | succ width ih => simp [ofNat, ih]

theorem toNat_lt (bs : List Bool) : toNat bs < 2 ^ bs.length := by
  induction bs with
  | nil => simp [toNat]
  | cons b rest ih =>
    have := Bool.toNat_lt b
    rw [toNat, List.length_cons, Nat.pow_succ]
    omega

/-- Taking a number apart and putting it together again leaves its lowest bits. -/
theorem toNat_ofNat (n width : Nat) : toNat (ofNat n width) = n % 2 ^ width := by
  induction width generalizing n with
  | zero => simp [ofNat, toNat, Nat.mod_one]
  | succ width ih =>
    have hb : (n.testBit 0).toNat = n % 2 := by
      simp [Nat.testBit_zero]
      rcases Nat.mod_two_eq_zero_or_one n with h | h <;> simp [h]
    rw [ofNat, toNat, ih, hb, Nat.pow_succ', Nat.mod_mul]

theorem ofNat_toNat (bs : List Bool) : ofNat (toNat bs) bs.length = bs := by
  induction bs with
  | nil => rfl
  | cons b rest ih =>
    have hd : (b.toNat + 2 * toNat rest) / 2 = toNat rest := by
      have := Bool.toNat_lt b
      omega
    have ht : (b.toNat + 2 * toNat rest).testBit 0 = b := by
      cases b <;> simp [Nat.testBit_zero]
    rw [List.length_cons, ofNat, toNat, ht, hd, ih]

end Bits

/-- The byte with its bits in the opposite order. -/
def reverseBits (b : UInt8) : UInt8 :=
  .ofNat (Bits.toNat (Bits.ofNat b.toNat 8).reverse)

/-- Reversing twice gives the byte back. -/
theorem reverseBits_reverseBits (b : UInt8) : reverseBits (reverseBits b) = b := by
  have key : ∀ bs : List Bool, bs.length = 8 →
      Bits.ofNat (UInt8.ofNat (Bits.toNat bs)).toNat 8 = bs := by
    intro bs h
    have hlt := Bits.toNat_lt bs
    rw [h] at hlt
    have e : (UInt8.ofNat (Bits.toNat bs)).toNat = Bits.toNat bs := by
      simp only [UInt8.toNat_ofNat']
      exact Nat.mod_eq_of_lt hlt
    rw [e, ← h, Bits.ofNat_toNat]
  unfold reverseBits
  rw [key _ (by simp), List.reverse_reverse, Bits.toNat_ofNat,
    Nat.mod_eq_of_lt b.toNat_lt, UInt8.ofNat_toNat]

namespace BitOrder

/-- A physical byte as the stream hands it out, and the other way round. -/
def logical : BitOrder → UInt8 → UInt8
  | .lsb0, b => b
  | .msb0, b => reverseBits b

theorem logical_logical (order : BitOrder) (b : UInt8) :
    order.logical (order.logical b) = b := by
  cases order with
  | lsb0 => rfl
  | msb0 => exact reverseBits_reverseBits b

/-- Logical bit `i` of a physical byte. -/
def bit (order : BitOrder) (b : UInt8) (i : Nat) : Bool :=
  (order.logical b).toNat.testBit i

end BitOrder

namespace ByteOrder

/-- The lowest `count` bytes of a number, the least significant first. -/
def littleBytes (n : Nat) : (count : Nat) → List UInt8
  | 0 => []
  | count + 1 => .ofNat n :: littleBytes (n / 256) count

/-- The number whose bytes are given, the least significant first. -/
def ofLittleBytes : List UInt8 → Nat
  | [] => 0
  | b :: rest => b.toNat + 256 * ofLittleBytes rest

/-- The bytes of a number in this order. -/
def bytes (order : ByteOrder) (n count : Nat) : List UInt8 :=
  match order with
  | .little => littleBytes n count
  | .big => (littleBytes n count).reverse

/-- The number whose bytes are given in this order. -/
def number (order : ByteOrder) (bs : List UInt8) : Nat :=
  match order with
  | .little => ofLittleBytes bs
  | .big => ofLittleBytes bs.reverse

@[simp] theorem length_littleBytes (n count : Nat) : (littleBytes n count).length = count := by
  induction count generalizing n with
  | zero => rfl
  | succ count ih => simp [littleBytes, ih]

theorem ofLittleBytes_littleBytes (n count : Nat) :
    ofLittleBytes (littleBytes n count) = n % 256 ^ count := by
  induction count generalizing n with
  | zero => simp [littleBytes, ofLittleBytes, Nat.mod_one]
  | succ count ih =>
    rw [littleBytes, ofLittleBytes, ih, Nat.pow_succ', Nat.mod_mul]
    simp

@[simp] theorem length_bytes (order : ByteOrder) (n count : Nat) :
    (order.bytes n count).length = count := by
  cases order <;> simp [bytes]

theorem number_bytes (order : ByteOrder) (n count : Nat) :
    order.number (order.bytes n count) = n % 256 ^ count := by
  cases order <;> simp [bytes, number, ofLittleBytes_littleBytes]

theorem littleBytes_ofLittleBytes (bs : List UInt8) :
    littleBytes (ofLittleBytes bs) bs.length = bs := by
  induction bs with
  | nil => rfl
  | cons b rest ih =>
    have hb := b.toNat_lt
    have hd : (b.toNat + 256 * ofLittleBytes rest) / 256 = ofLittleBytes rest := by omega
    have he : UInt8.ofNat (b.toNat + 256 * ofLittleBytes rest) = b := by
      apply UInt8.toNat_inj.mp
      rw [UInt8.toNat_ofNat']
      omega
    rw [List.length_cons, ofLittleBytes, littleBytes, hd, he, ih]

theorem bytes_number (order : ByteOrder) (bs : List UInt8) :
    order.bytes (order.number bs) bs.length = bs := by
  cases order with
  | little => exact littleBytes_ofLittleBytes bs
  | big =>
    have h := littleBytes_ofLittleBytes bs.reverse
    rw [List.length_reverse] at h
    simp [bytes, number, h]

end ByteOrder

end RecordLayout
