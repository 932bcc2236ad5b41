import Mathlib
import RecordLayout.Bits.Reader
import RecordLayout.Bits.Writer

/-!
# Bits of streams

A stream of bytes is looked at as the list of its bits in the order in which they are handed out.
A reader has a list of bits ahead of it and a writer has a list of bits behind it; everything the
two do is said in terms of these lists, so that the byte being read or filled, the lookahead and the
requests made in one piece do not matter any more.
-/

namespace RecordLayout

namespace Bits

/-- The bits of a number come from the lowest to the highest. -/
theorem getElem_ofNat {n width i : Nat} (h : i < (ofNat n width).length) :
    (ofNat n width)[i] = n.testBit i := by
  induction width generalizing n i with
  | zero => simp [ofNat] at h
  | succ width ih =>
    cases i with
    | zero => simp [ofNat]
    | succ i =>
      simp only [ofNat, List.getElem_cons_succ]
      rw [ih (by simpa using h), Nat.testBit_div_two]

@[simp] theorem ofNat_zero_left (width : Nat) : ofNat 0 width = List.replicate width false := by
  induction width with
  | zero => rfl
  | succ width ih => simp [ofNat, ih, List.replicate_succ]

theorem ofNat_inj {n m width : Nat} (hn : n < 2 ^ width) (hm : m < 2 ^ width)
    (h : ofNat n width = ofNat m width) : n = m := by
  have := congrArg toNat h
  rwa [toNat_ofNat, toNat_ofNat, Nat.mod_eq_of_lt hn, Nat.mod_eq_of_lt hm] at this

/-- The bits of bytes, of each the least significant first. -/
def ofBytes (bs : List UInt8) : List Bool := bs.flatMap fun b => ofNat b.toNat 8

@[simp] theorem ofBytes_nil : ofBytes [] = [] := rfl

@[simp] theorem ofBytes_cons (b : UInt8) (bs : List UInt8) :
    ofBytes (b :: bs) = ofNat b.toNat 8 ++ ofBytes bs := rfl

@[simp] theorem ofBytes_append (bs cs : List UInt8) :
    ofBytes (bs ++ cs) = ofBytes bs ++ ofBytes cs := List.flatMap_append

@[simp] theorem length_ofBytes (bs : List UInt8) : (ofBytes bs).length = 8 * bs.length := by
  induction bs with
  | nil => rfl
  | cons b bs ih => simp [ih]; omega

theorem ofNat_uint8_inj {a b : UInt8} (h : ofNat a.toNat 8 = ofNat b.toNat 8) : a = b :=
  UInt8.toNat_inj.mp (ofNat_inj a.toNat_lt b.toNat_lt h)

/-- Bits that come from bytes determine them. -/
theorem ofBytes_inj {bs cs : List UInt8} (h : ofBytes bs = ofBytes cs) : bs = cs := by
  induction bs generalizing cs with
  | nil =>
    cases cs with
    | nil => rfl
    | cons c cs =>
      have hlen := congrArg List.length h
      simp only [length_ofBytes, List.length_nil, List.length_cons] at hlen
      omega
  | cons b bs ih =>
    cases cs with
    | nil =>
      have hlen := congrArg List.length h
      simp only [length_ofBytes, List.length_nil, List.length_cons] at hlen
      omega
    | cons c cs =>
      rw [ofBytes_cons, ofBytes_cons] at h
      obtain ⟨hhead, htail⟩ := List.append_inj h (by simp)
      rw [ofNat_uint8_inj hhead, ih htail]

/-- The byte that eight bits make. -/
theorem exists_ofNat_eq {bits : List Bool} (h : bits.length = 8) :
    ∃ b : UInt8, ofNat b.toNat 8 = bits := by
  refine ⟨.ofNat (toNat bits), ?_⟩
  have hlt : toNat bits < 2 ^ 8 := h ▸ toNat_lt bits
  rw [UInt8.toNat_ofNat', Nat.mod_eq_of_lt hlt, ← h, ofNat_toNat]

end Bits

namespace BitOrder

/-- The bits that a stream of bytes hands out. -/
def stream (order : BitOrder) (bs : List UInt8) : List Bool := Bits.ofBytes (bs.map order.logical)

@[simp] theorem stream_nil (order : BitOrder) : order.stream [] = [] := rfl

@[simp] theorem stream_cons (order : BitOrder) (b : UInt8) (bs : List UInt8) :
    order.stream (b :: bs) = Bits.ofNat (order.logical b).toNat 8 ++ order.stream bs := rfl

@[simp] theorem stream_append (order : BitOrder) (bs cs : List UInt8) :
    order.stream (bs ++ cs) = order.stream bs ++ order.stream cs := by
  simp [stream]

@[simp] theorem length_stream (order : BitOrder) (bs : List UInt8) :
    (order.stream bs).length = 8 * bs.length := by
  simp [stream]

theorem stream_inj {order : BitOrder} {bs cs : List UInt8} (h : order.stream bs = order.stream cs) :
    bs = cs := by
  have hmap := Bits.ofBytes_inj h
  have := congrArg (List.map order.logical) hmap
  simpa [Function.comp_def, logical_logical] using this

theorem stream_take (order : BitOrder) (bs : List UInt8) (n : Nat) :
    order.stream (bs.take n) = (order.stream bs).take (8 * n) := by
  induction bs generalizing n with
  | nil => simp
  | cons b bs ih =>
    cases n with
    | zero => simp
    | succ n =>
      have hlen : 8 * (n + 1) = (Bits.ofNat (order.logical b).toNat 8).length + 8 * n := by
        rw [Bits.length_ofNat]
        omega
      rw [List.take_succ_cons, stream_cons, stream_cons, ih, hlen, List.take_length_add_append]

theorem stream_drop (order : BitOrder) (bs : List UInt8) (n : Nat) :
    order.stream (bs.drop n) = (order.stream bs).drop (8 * n) := by
  have h := congrArg order.stream (List.take_append_drop n bs)
  rw [stream_append, stream_take] at h
  have h' := List.take_append_drop (8 * n) (order.stream bs)
  exact List.append_cancel_left (h.trans h'.symm)

/-- Which bit of the physical byte a logical bit is. -/
def place : BitOrder → Nat → Nat
  | lsb0, i => i
  | msb0, i => 7 - i

theorem place_lt {order : BitOrder} {i : Nat} (h : i < 8) : order.place i < 8 := by
  cases order with
  | lsb0 => exact h
  | msb0 => exact Nat.lt_of_le_of_lt (Nat.sub_le 7 i) (by decide)

theorem place_place {order : BitOrder} {i : Nat} (h : i < 8) : order.place (order.place i) = i := by
  cases order with
  | lsb0 => rfl
  | msb0 => simp only [place]; omega

/-- The order says at which place of the byte a bit stands. -/
theorem testBit_logical (order : BitOrder) (b : UInt8) {i : Nat} (h : i < 8) :
    (order.logical b).toNat.testBit i = b.toNat.testBit (order.place i) := by
  cases order with
  | lsb0 => rfl
  | msb0 =>
    have hlt := Bits.toNat_lt (Bits.ofNat b.toNat 8).reverse
    rw [List.length_reverse, Bits.length_ofNat] at hlt
    have hbits := Bits.ofNat_toNat (Bits.ofNat b.toNat 8).reverse
    rw [List.length_reverse, Bits.length_ofNat] at hbits
    have hi : i < (Bits.ofNat (reverseBits b).toNat 8).length := by simpa using h
    have hrev : Bits.ofNat (reverseBits b).toNat 8 = (Bits.ofNat b.toNat 8).reverse := by
      rw [reverseBits, UInt8.toNat_ofNat', Nat.mod_eq_of_lt hlt, hbits]
    have hget := Bits.getElem_ofNat hi
    simp only [hrev, List.getElem_reverse, Bits.getElem_ofNat, Bits.length_ofNat] at hget
    rw [logical, ← hget, place]

@[simp] theorem logical_zero (order : BitOrder) : order.logical 0 = 0 := by
  cases order <;> decide

end BitOrder

end RecordLayout
