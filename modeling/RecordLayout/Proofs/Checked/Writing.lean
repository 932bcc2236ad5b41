import RecordLayout.Proofs.Bits.MirrorWriting
import RecordLayout.Proofs.Checked.Reading

/-!
# Checked writing

Bits are put into a byte as many at a time as the byte has room for. The word is shifted down by the
bits already written and cut to that many, and these are shifted up to their place in the byte. The
bytes are those that are filled bit by bit, and no shift goes too far, as long as fewer than eight
bits of the byte are filled.
-/

namespace RecordLayout

/-- Bytes are put together before or after they are turned into their order. -/
theorem BitOrder.logical_or (order : BitOrder) (a b : UInt8) :
    order.logical (a ||| b) = order.logical a ||| order.logical b := by
  cases order with
  | lsb0 => rfl
  | msb0 => exact reverseBits_or a b

/-- The bits of a number are its lowest ones and those of the quotient. -/
theorem Bits.ofNat_add (n i j : Nat) :
    ofNat n (i + j) = ofNat n i ++ ofNat (n / 2 ^ i) j := by
  induction i generalizing n with
  | zero => simp [ofNat]
  | succ i ih => rw [Nat.add_right_comm, ofNat, ih, ofNat, Nat.pow_succ', Nat.div_div_eq_div_mul,
      List.cons_append]

namespace Writer

/-- Fewer than the eight bits of a byte are filled. -/
def InByte (w : Writer) : Prop := w.used < 8

/-- The bits of a word from `written` on, `take` of them, in a byte. -/
def chunk (value : UInt64) (written take : Nat) : UInt8 :=
  ((value >>> UInt64.ofNat written) &&& mask take).toUInt8

/-- Fills bits of the byte being filled with those of another byte. -/
def fill (order : BitOrder) (b : UInt8) (w : Writer) : UInt8 :=
  w.current ||| order.logical (b <<< UInt8.ofNat w.used)

/-- The bits of a number behind the first `written`, which are written already. -/
def putChunks (order : BitOrder) (value : UInt64) (width written : Nat) : CheckedM Writer Unit :=
  fun w =>
    if written < width then
      if written < 64 then
        if w.used < 8 then
          let take := min (8 - w.used) (width - written)
          let filled := w.fill order (chunk value written take)
          if w.used + take = 8 then
            match emit filled { w with current := 0, used := 0 } with
            | .error e w => .error (.error e) w
            | .ok _ w => putChunks order value width (written + take) w
          else
            putChunks order value width (written + take)
              { w with current := filled, used := w.used + take }
        else .error (.fault (.shift w.used 8)) w
      else .error (.fault (.shift written 64)) w
    else .ok () w
termination_by width - written

variable {w : Writer} {order : BitOrder}

/-- Bits that fit behind the first `used` of a byte. -/
theorem toNat_shiftLeft_ofNat {n used take : Nat} (hn : n < 2 ^ take) (h : used + take ≤ 8) :
    (UInt8.ofNat n <<< UInt8.ofNat used).toNat = n * 2 ^ used := by
  by_cases hused : used < 8
  · have hmul : n * 2 ^ used < 2 ^ 8 := by
      have hlt : n * 2 ^ used < 2 ^ take * 2 ^ used :=
        Nat.mul_lt_mul_of_pos_right hn (Nat.two_pow_pos used)
      rw [← Nat.pow_add] at hlt
      exact hlt.trans_le (Nat.pow_le_pow_right (by omega) (by omega))
    have hbyte : n < 2 ^ 8 :=
      Nat.lt_of_le_of_lt (Nat.le_mul_of_pos_right n (Nat.two_pow_pos used)) hmul
    rw [UInt8.toNat_shiftLeft, UInt8.toNat_ofNat', UInt8.toNat_ofNat', Nat.shiftLeft_eq]
    rw [Nat.mod_eq_of_lt (show used < 2 ^ 8 by omega), Nat.mod_eq_of_lt hused]
    rw [Nat.mod_eq_of_lt hbyte, Nat.mod_eq_of_lt hmul]
  · have hzero : n = 0 := by
      have htake : take = 0 := by omega
      subst htake
      omega
    subst hzero
    simp

/-- Bits are their first one and the others above it. -/
theorem shiftLeft_succ {n used take : Nat} (h : used + (take + 1) ≤ 8) :
    UInt8.ofNat (n % 2 ^ (take + 1)) <<< UInt8.ofNat used =
      (UInt8.ofNat (n % 2) <<< UInt8.ofNat used) |||
        (UInt8.ofNat (n / 2 % 2 ^ take) <<< UInt8.ofNat (used + 1)) := by
  have hfirst : n % 2 < 2 ^ 1 := Nat.mod_lt _ (by omega)
  have hlow : n % 2 * 2 ^ used < 2 ^ (used + 1) := by
    rw [Nat.pow_succ']
    exact Nat.mul_lt_mul_of_pos_right hfirst (Nat.two_pow_pos used)
  apply UInt8.toNat_inj.mp
  rw [UInt8.toNat_or, toNat_shiftLeft_ofNat (Nat.mod_lt n (Nat.two_pow_pos _)) h,
    toNat_shiftLeft_ofNat hfirst (by omega),
    toNat_shiftLeft_ofNat (Nat.mod_lt (n / 2) (Nat.two_pow_pos take)) (by omega)]
  rw [Nat.or_comm, ← Nat.shiftLeft_eq _ (used + 1), ← Nat.shiftLeft_add_eq_or_of_lt hlow,
    Nat.shiftLeft_eq, Nat.pow_succ' (n := take), Nat.mod_mul, Nat.pow_succ]
  ring

/-- The bits of a number, of which the byte being filled takes `take`. -/
theorem putBits_succ (n take : Nat) :
    putBits order (Bits.ofNat n (take + 1)) w =
      (putBit order (n.testBit 0) >>= fun _ => putBits order (Bits.ofNat (n / 2) take)) w := rfl

theorem fill_zero (b : UInt8) (hb : b = 0) : w.fill order b = w.current := by
  subst hb
  have hlogical : order.logical 0 = 0 := by cases order <;> decide
  simp [fill, hlogical]

theorem fill_bit (n : Nat) :
    (if n.testBit 0 then w.current ||| order.logical ((1 : UInt8) <<< UInt8.ofNat w.used)
      else w.current) = w.fill order (.ofNat (n % 2)) := by
  rcases Nat.mod_two_eq_zero_or_one n with hn | hn
  · rw [fill_zero _ (by rw [hn]; rfl), if_neg (by simp [Nat.testBit_zero, hn])]
  · rw [if_pos (by simp [Nat.testBit_zero, hn]), hn]
    rfl

/-- A bit and those above it fill the byte as all of them at once do. -/
theorem fill_succ {n take : Nat} (h : w.used + (take + 1) ≤ 8) :
    ({ w with current := w.fill order (.ofNat (n % 2)), used := w.used + 1 } : Writer).fill order
        (.ofNat (n / 2 % 2 ^ take)) =
      w.fill order (.ofNat (n % 2 ^ (take + 1))) := by
  simp only [fill, shiftLeft_succ h, BitOrder.logical_or]
  rw [UInt8.or_assoc]

/-- A bit that does not complete the byte stays in it. -/
theorem putBit_within {n : Nat} (h : w.used < 7) :
    putBit order (n.testBit 0) w =
      .ok () { w with current := w.fill order (.ofNat (n % 2)), used := w.used + 1 } := by
  simp only [putBit, bind_of_ok (get_apply w), if_pos h]
  rw [fill_bit]
  rfl

/-- A bit at a time, as far as the byte has room behind them. -/
theorem putBits_within {n take : Nat} (h : w.used + take < 8) :
    putBits order (Bits.ofNat n take) w =
      .ok () { w with
        current := w.fill order (.ofNat (n % 2 ^ take)), used := w.used + take } := by
  induction take generalizing n w with
  | zero =>
    rw [fill_zero _ (by rw [Nat.pow_zero, Nat.mod_one]; rfl)]
    rfl
  | succ take ih =>
    rw [putBits_succ, bind_of_ok (putBit_within (by omega)), ih (by dsimp only; omega),
      fill_succ (by omega), Nat.add_right_comm, Nat.add_assoc]

/-- The bits that make the byte full. -/
theorem putBits_full {n take : Nat} (hpos : 0 < take) (h : w.used + take = 8) :
    putBits order (Bits.ofNat n take) w =
      emit (w.fill order (.ofNat (n % 2 ^ take))) { w with current := 0, used := 0 } := by
  induction take generalizing n w with
  | zero => omega
  | succ take ih =>
    rw [putBits_succ]
    by_cases hlast : take = 0
    · subst hlast
      have hput : putBit order (n.testBit 0) w =
          emit (w.fill order (.ofNat (n % 2))) { w with current := 0, used := 0 } := by
        simp only [putBit, bind_of_ok (get_apply w), if_neg (show ¬ w.used < 7 by omega)]
        rw [fill_bit]
        rfl
      cases hemit : emit (w.fill order (.ofNat (n % 2))) { w with current := 0, used := 0 } with
      | ok _ w' =>
        rw [bind_of_ok (hput.trans hemit)]
        rfl
      | error e w' => rw [bind_of_error (hput.trans hemit)]
    · rw [bind_of_ok (putBit_within (by omega)), ih (by omega) (by dsimp only; omega),
        fill_succ (by omega)]

/-- Bits are put one after the other. -/
theorem putBits_append (bs cs : List Bool) :
    putBits order (bs ++ cs) w = (putBits order bs >>= fun _ => putBits order cs) w := by
  induction bs generalizing w with
  | nil => rfl
  | cons b bs ih =>
    change (putBit order b >>= fun _ => putBits order (bs ++ cs)) w = _
    cases h : putBit order b w with
    | ok _ w' =>
      rw [bind_of_ok h, ih]
      change _ = ((putBit order b >>= fun _ => putBits order bs) >>= fun _ => putBits order cs) w
      rw [bind_assoc, bind_of_ok h]
    | error e w' =>
      rw [bind_of_error h]
      change _ = ((putBit order b >>= fun _ => putBits order bs) >>= fun _ => putBits order cs) w
      rw [bind_assoc, bind_of_error h]

theorem used_of_emit (b : UInt8) : (stateOf (emit b w)).used = w.used := by
  unfold emit
  cases w.sink.put b <;> rfl

/-- The bits of a word from one place on. -/
theorem chunk_eq {value : UInt64} {written take : Nat} (hwritten : written < 64) (htake : take ≤ 8) :
    chunk value written take = .ofNat (value.toNat / 2 ^ written % 2 ^ take) := by
  have hlt : value.toNat / 2 ^ written % 2 ^ take < 2 ^ 8 :=
    (Nat.mod_lt _ (Nat.two_pow_pos take)).trans_le (Nat.pow_le_pow_right (by omega) htake)
  apply UInt8.toNat_inj.mp
  rw [chunk, UInt64.toNat_toUInt8, UInt64.toNat_and, toNat_mask (by omega),
    Nat.and_two_pow_sub_one_eq_mod, UInt64.toNat_shiftRight, UInt64.toNat_ofNat',
    Nat.shiftRight_eq_div_pow, Nat.mod_eq_of_lt (show written < 2 ^ 64 by omega),
    Nat.mod_eq_of_lt hwritten, UInt8.toNat_ofNat']

/-- The induction is on the bits still to be written; each round writes at least one. -/
theorem putChunks_eq (order : BitOrder) (value : UInt64) {width : Nat} (written : Nat)
    (hw : w.InByte) (hwidth : width ≤ 64) :
    putChunks order value width written w =
        raised (putBits order (Bits.ofNat (value.toNat / 2 ^ written) (width - written)) w) ∧
      (stateOf
        (putBits order (Bits.ofNat (value.toNat / 2 ^ written) (width - written)) w)).InByte := by
  induction hleft : width - written using Nat.strongRecOn generalizing written w with
  | ind left ih =>
  subst hleft
  rw [putChunks]
  by_cases hmore : written < width
  · have hused : w.used < 8 := hw
    rw [if_pos hmore, if_pos (by omega), if_pos hused]
    -- A chunk is what is still free in the byte at hand, or what is left of the number.
    generalize htake : min (8 - w.used) (width - written) = take
    have hsplit : Bits.ofNat (value.toNat / 2 ^ written) (width - written) =
        Bits.ofNat (value.toNat / 2 ^ written) take ++
          Bits.ofNat (value.toNat / 2 ^ (written + take)) (width - (written + take)) := by
      rw [Nat.pow_add, ← Nat.div_div_eq_div_mul, ← Bits.ofNat_add]
      congr 1
      omega
    rw [hsplit, putBits_append]
    dsimp only
    rw [chunk_eq (by omega) (by omega)]
    -- Only a full byte goes to the sink, so this is the only case that can fail.
    by_cases hfull : w.used + take = 8
    · rw [if_pos hfull]
      have hput : putBits order (Bits.ofNat (value.toNat / 2 ^ written) take) w = _ :=
        putBits_full (by omega) hfull
      have hkeep := used_of_emit (w := { w with current := 0, used := 0 })
        (w.fill order (.ofNat (value.toNat / 2 ^ written % 2 ^ take)))
      cases hemit : emit (w.fill order (.ofNat (value.toNat / 2 ^ written % 2 ^ take)))
          { w with current := 0, used := 0 } with
      | ok _ w' =>
        rw [hemit] at hkeep
        rw [bind_of_ok (hput.trans hemit)]
        exact ih _ (by omega) _ (hkeep.trans_lt (Nat.zero_lt_succ 7)) rfl
      | error e w' =>
        rw [hemit] at hkeep
        rw [bind_of_error (hput.trans hemit)]
        exact ⟨rfl, hkeep.trans_lt (Nat.zero_lt_succ 7)⟩
    · rw [if_neg hfull]
      have hroom : w.used + take < 8 := by omega
      rw [bind_of_ok (putBits_within hroom)]
      exact ih _ (by omega) _ (by unfold InByte; dsimp only; omega) rfl
  · rw [if_neg hmore, show width - written = 0 by omega]
    exact ⟨rfl, hw⟩

/-! ## The operations -/

namespace Checked

/-- The lowest bits of a number, 1 to 64 of them, the least significant first. -/
def writeBits (value : UInt64) (width : Nat) (order : BitOrder) : CheckedM Writer Unit := do
  if width = 0 ∨ 64 < width then raise (.widthOutOfRange width)
  putChunks order value width 0
  modify fun w => { w with bitCount := w.bitCount + width }

/-- Eight bits. -/
def writeByte (b : UInt8) (order : BitOrder) : CheckedM Writer Unit := do
  let w ← get
  if w.used = 0 then
    plainly (emit (order.logical b))
    modify fun w => { w with bitCount := w.bitCount + 8 }
  else writeBits b.toUInt64 8 order

/-- Bytes in a row. -/
def writeBytes (bs : List UInt8) (order : BitOrder) : CheckedM Writer Unit :=
  match bs with
  | [] => pure ()
  | b :: rest => do
    writeByte b order
    writeBytes rest order

/-- A number of whole bytes. -/
def writeNumber (n size : Nat) (bytes : ByteOrder) (order : BitOrder) : CheckedM Writer Unit :=
  writeBytes (bytes.bytes n size) order

/-- The length of a text in front of it, without the zeros at the front of a buffer of four bytes. -/
def writeTextLength (length : Nat) (order : BitOrder) : CheckedM Writer Unit :=
  if length < 0x80 then writeByte (.ofNat length) order
  else do
    let buffer := ByteOrder.big.bytes length 4
    let zeros := (buffer.takeWhile (· == 0)).length
    if buffer.length < zeros then fault (.index zeros buffer.length)
    writeByte (0x80 ||| UInt8.ofNat (4 - zeros)) order
    writeBytes (buffer.drop zeros) order

/-- A text behind its length, or the mark that there is none. -/
def writeText (text : Option String) (order : BitOrder) : CheckedM Writer Unit := do
  match text with
  | none => writeByte 0xFF order
  | some text =>
    let body := Text.Utf8.encode text
    if 2 ^ 32 ≤ body.length then raise (.textTooLong body.length)
    writeTextLength body.length order
    writeBytes body order

/-- Zero bytes. -/
def skipBytes : (count : Nat) → CheckedM Writer Unit
  | 0 => pure ()
  | count + 1 => do
    writeByte 0 .lsb0
    skipBytes count

/-- Fills up the byte being filled and writes zero bytes to a multiple of `n` bytes. -/
def align (n : Nat) : CheckedM Writer Unit := do
  plainly leaveByte
  let w ← get
  skipBytes ((n - w.byteCount % n) % n)

end Checked

theorem inByte_ofSink (sink : Sink) : (ofSink sink).InByte := Nat.zero_lt_succ 7

theorem retains_emit (b : UInt8) : Retains InByte (emit b) := by
  intro w hw
  exact (used_of_emit b).trans_lt hw

theorem retains_flushBits : Retains InByte flushBits := by
  intro w hw
  simp only [flushBits, bind_of_ok (get_apply w)]
  by_cases hused : 0 < w.used
  · rw [if_pos hused, bind_of_ok (set_apply w _)]
    exact retains_emit _ _ (Nat.zero_lt_succ 7)
  · rw [if_neg hused]
    exact hw

theorem retains_leaveByte : Retains InByte leaveByte := by
  intro w hw
  simp only [leaveByte, bind_of_ok (get_apply w)]
  by_cases hused : 0 < w.used
  · rw [if_pos hused, bind_of_ok (set_apply w _)]
    exact retains_flushBits _ hw
  · rw [if_neg hused]
    exact hw

theorem retains_reset : Retains InByte reset :=
  retains_flushBits.bind fun _ => Retains.modify fun _ h => h

theorem retains_finish : Retains InByte finish := by
  refine retains_flushBits.bind fun _ => ?_
  intro w hw
  rw [bind_of_ok (get_apply w)]
  cases w.sink.flushFailure <;> exact hw

/-- The chunks are those of the loop, and no shift is by more than a byte has. -/
theorem safe_writeBits (value : UInt64) (width : Nat) (order : BitOrder) :
    Safe InByte id (writeBits value width order) (Checked.writeBits value width order) := by
  unfold writeBits Checked.writeBits
  by_cases hwidth : width = 0 ∨ 64 < width
  · rw [if_pos hwidth, if_pos hwidth]
    exact Safe.throw _
  · rw [if_neg hwidth, if_neg hwidth]
    have hput : Safe InByte id (putBits order (Bits.ofNat value.toNat width))
        (putChunks order value width 0) := by
      apply Safe.here
      intro w hw
      have h := putChunks_eq order value 0 hw (show width ≤ 64 by omega)
      rwa [Nat.pow_zero, Nat.div_one, Nat.sub_zero] at h
    exact hput.bind fun _ => Safe.modify (fun _ => rfl) fun _ h => h

theorem safe_writeByte (b : UInt8) (order : BitOrder) :
    Safe InByte id (writeByte b order) (Checked.writeByte b order) := by
  apply Safe.get_bind
  intro w hw
  by_cases hused : w.used = 0
  · simp only [id_eq, if_pos hused]
    refine ((Safe.plainly (retains_emit _)).bind fun _ => ?_) w hw
    exact Safe.modify (fun _ => rfl) fun _ h => h
  · simp only [id_eq, if_neg hused]
    exact safe_writeBits _ 8 order w hw

theorem safe_writeBytes (bs : List UInt8) (order : BitOrder) :
    Safe InByte id (writeBytes bs order) (Checked.writeBytes bs order) := by
  induction bs with
  | nil => exact Safe.pure _
  | cons b bs ih => exact (safe_writeByte b order).bind fun _ => ih

theorem safe_writeNumber (n size : Nat) (bytes : ByteOrder) (order : BitOrder) :
    Safe InByte id (writeNumber n size bytes order) (Checked.writeNumber n size bytes order) :=
  safe_writeBytes _ order

theorem or_mark {count : Nat} (h : count ≤ 4) :
    (0x80 ||| UInt8.ofNat count : UInt8) = .ofNat (0x80 + count) := by
  have hall : ∀ count ≤ 4, (0x80 ||| UInt8.ofNat count : UInt8) = .ofNat (0x80 + count) := by decide
  exact hall count h

/-- The digits of a length are dropped and counted within the bytes of a word. -/
theorem safe_writeTextLength (length : Nat) (order : BitOrder) :
    Safe InByte id (writeBytes (textLength length) order) (Checked.writeTextLength length order) := by
  unfold Checked.writeTextLength
  by_cases hshort : length < 0x80
  · rw [if_pos hshort, textLength_of_lt hshort]
    have hone : writeBytes [.ofNat length] order =
        (writeByte (.ofNat length) order >>= fun _ => pure ()) := rfl
    rw [hone, bind_pure_unit]
    exact safe_writeByte _ order
  · rw [if_neg hshort, textLength_of_le (Nat.le_of_not_lt hshort)]
    generalize hbuffer : ByteOrder.big.bytes length 4 = buffer
    have hlength : buffer.length = 4 := by rw [← hbuffer, ByteOrder.length_bytes]
    have hsplit := List.takeWhile_append_dropWhile (p := (· == (0 : UInt8))) (l := buffer)
    have hparts := congrArg List.length hsplit
    rw [List.length_append] at hparts
    have hdrop : buffer.drop (buffer.takeWhile (· == 0)).length = buffer.dropWhile (· == 0) := by
      have hleft := @List.drop_left _ (buffer.takeWhile (· == 0)) (buffer.dropWhile (· == 0))
      rwa [hsplit] at hleft
    have hmark := or_mark (show 4 - (buffer.takeWhile (· == 0)).length ≤ 4 by omega)
    dsimp only
    rw [if_neg (by omega), hmark, hdrop,
      show 4 - (buffer.takeWhile (· == 0)).length = (buffer.dropWhile (· == 0)).length by omega]
    exact (safe_writeByte _ order).bind fun _ => safe_writeBytes _ order

/-- A text checks its length before it writes anything. -/
theorem safe_writeText (text : Option String) (order : BitOrder) :
    Safe InByte id (writeText text order) (Checked.writeText text order) := by
  cases text with
  | none => exact safe_writeByte _ order
  | some text =>
    unfold writeText Checked.writeText
    dsimp only
    split
    · exact Safe.throw _
    · exact (safe_writeTextLength _ order).bind fun _ => safe_writeBytes _ order

theorem safe_skipBytes (count : Nat) :
    Safe InByte id (skipBytes count) (Checked.skipBytes count) := by
  induction count with
  | zero => exact Safe.pure _
  | succ count ih => exact (safe_writeByte 0 .lsb0).bind fun _ => ih

theorem safe_align (n : Nat) : Safe InByte id (align n) (Checked.align n) := by
  refine (Safe.plainly retains_leaveByte).bind fun _ => ?_
  exact Safe.get_bind fun w hw => safe_skipBytes _ w hw

end Writer

/-- Carries out a writing program. -/
def WriteProgram.checkedRun (order : BitOrder) : WriteProgram → CheckedM Writer Unit
  | .done result => settled result
  | .bits value width next => do
    let answer ← checkedOutcome (Writer.Checked.writeBits value width.toNat order)
    (next answer).checkedRun order
  | .byte b next => do
    let answer ← checkedOutcome (Writer.Checked.writeByte b order)
    (next answer).checkedRun order

open Writer in
/-- A program of requests finds no fault, since none of its requests does. -/
theorem WriteProgram.safe_run (order : BitOrder) (p : WriteProgram) :
    Safe InByte id (p.run order) (p.checkedRun order) := by
  induction p with
  | done result => exact Safe.settle result
  | bits value width next ih => exact (safe_writeBits value _ order).outcome.bind ih
  | byte b next ih => exact (safe_writeByte b order).outcome.bind ih

end RecordLayout
