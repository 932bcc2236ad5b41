import RecordLayout.Proofs.Bits.Spelling
import RecordLayout.Proofs.Checked.Fault

/-!
# Checked reading

Bits are taken from a byte as many at a time as the byte still has. The byte, in logical order, is
shifted down by the bits already read and cut to the wanted ones, and what is left is shifted up to
its place in the word that is put together. Taken in this way the bits are those that are handed out
one by one, and no shift goes too far, as long as at most eight bits of the byte are read.
-/

namespace RecordLayout

namespace Bits

theorem toNat_append (bs cs : List Bool) :
    toNat (bs ++ cs) = toNat bs + 2 ^ bs.length * toNat cs := by
  induction bs with
  | nil => simp [toNat]
  | cons b bs ih =>
    rw [List.cons_append, toNat, ih, toNat, List.length_cons, Nat.pow_succ']
    ring

end Bits

/-- A word whose lowest bits are set. -/
def mask (width : Nat) : UInt64 :=
  if 64 ≤ width then .ofNat (2 ^ 64 - 1) else (1 <<< UInt64.ofNat width) - 1

/-- A mask is made of ones up to its width. -/
theorem toNat_mask {width : Nat} (h : width < 64) : (mask width).toNat = 2 ^ width - 1 := by
  have hpow : 2 ^ width < 2 ^ 64 := Nat.pow_lt_pow_right (by omega) h
  have hshift : ((1 : UInt64) <<< UInt64.ofNat width).toNat = 2 ^ width := by
    rw [UInt64.toNat_shiftLeft, UInt64.toNat_ofNat']
    rw [Nat.mod_eq_of_lt (show width < 2 ^ 64 by omega), Nat.mod_eq_of_lt h]
    rw [Nat.shiftLeft_eq, UInt64.toNat_one, Nat.one_mul, Nat.mod_eq_of_lt hpow]
  have hpos : 0 < 2 ^ width := Nat.two_pow_pos width
  rw [mask, if_neg (by omega), UInt64.toNat_sub_of_le, hshift]
  · rfl
  · rw [UInt64.le_iff_toNat_le, hshift]
    exact hpos

namespace Reader

/-- At most the eight bits of a byte are read. -/
def InByte (r : Reader) : Prop := r.used ≤ 8

/-- The bits of the byte being read from the next one on, in a word. -/
def chunk (order : BitOrder) (take : Nat) (r : Reader) : UInt64 :=
  (order.logical r.current >>> UInt8.ofNat r.used).toUInt64 &&& mask take

/-- Fetches a byte if the last one is read to its end. -/
def fetch (width filled : Nat) : ReadM Unit := do
  let r ← get
  if r.used = 8 then
    match ← pull with
    | none => throw (.bitsMissing width filled)
    | some b =>
      modify fun r =>
        { r with current := b, used := 0, byteCount := r.byteCount + 1, fetched := r.fetched + 1 }

/-- The bits of a number behind the first `filled`, which are in `out`. -/
def takeChunks (order : BitOrder) (width filled : Nat) (out : UInt64) : CheckedM Reader UInt64 :=
  fun r =>
    if filled < width then
      match fetch width filled r with
      | .error e r => .error (.error e) r
      | .ok _ r =>
        if r.used < 8 then
          if filled < 64 then
            let take := min (8 - r.used) (width - filled)
            takeChunks order width (filled + take) (out ||| r.chunk order take <<< .ofNat filled)
              { r with used := r.used + take }
          else .error (.fault (.shift filled 64)) r
        else .error (.fault (.shift r.used 8)) r
    else .ok out r
termination_by width - filled

variable {r : Reader} {order : BitOrder}

/-- A chunk is the bits of the byte behind those that are used. -/
theorem toNat_chunk (order : BitOrder) (hused : r.used < 8) {take : Nat} (htake : take ≤ 8) :
    (r.chunk order take).toNat =
      Bits.toNat (Bits.ofNat ((order.logical r.current).toNat / 2 ^ r.used) take) := by
  rw [chunk, UInt64.toNat_and, toNat_mask (by omega), Nat.and_two_pow_sub_one_eq_mod]
  rw [UInt8.toNat_toUInt64, UInt8.toNat_shiftRight, UInt8.toNat_ofNat', Nat.shiftRight_eq_div_pow]
  rw [Nat.mod_eq_of_lt (show r.used < 2 ^ 8 by omega), Nat.mod_eq_of_lt hused, Bits.toNat_ofNat]

/-- A word of fewer bits with more bits above them. -/
theorem toNat_or_shiftLeft {out more : UInt64} {filled take : Nat} (hout : out.toNat < 2 ^ filled)
    (hmore : more.toNat < 2 ^ take) (hfilled : filled < 64) (hle : filled + take ≤ 64) :
    (out ||| more <<< UInt64.ofNat filled).toNat = out.toNat + 2 ^ filled * more.toNat := by
  have hlt : more.toNat * 2 ^ filled < 2 ^ 64 := by
    have hmul : more.toNat * 2 ^ filled < 2 ^ take * 2 ^ filled :=
      Nat.mul_lt_mul_of_pos_right hmore (Nat.two_pow_pos filled)
    rw [← Nat.pow_add, Nat.add_comm] at hmul
    exact Nat.lt_of_lt_of_le hmul (Nat.pow_le_pow_right (by omega) hle)
  rw [UInt64.toNat_or, UInt64.toNat_shiftLeft, UInt64.toNat_ofNat']
  rw [Nat.mod_eq_of_lt (show filled < 2 ^ 64 by omega), Nat.mod_eq_of_lt hfilled]
  rw [Nat.shiftLeft_eq, Nat.mod_eq_of_lt hlt, ← Nat.shiftLeft_eq, Nat.or_comm]
  rw [← Nat.shiftLeft_add_eq_or_of_lt hout, Nat.shiftLeft_eq]
  ring

/-- The bits of the byte being read one by one. -/
theorem takeBits_within {width take more : Nat} (h : r.used + take ≤ 8) :
    takeBits order width (take + more) r =
      match takeBits order width more { r with used := r.used + take } with
      | .ok bits r' =>
        .ok (Bits.ofNat ((order.logical r.current).toNat / 2 ^ r.used) take ++ bits) r'
      | .error e r' => .error e r' := by
  induction take generalizing r with
  | zero =>
    rw [Nat.zero_add, Nat.add_zero]
    cases takeBits order width more r <;> rfl
  | succ take ih =>
    have hused : r.used < 8 := by omega
    have hbit : nextBit order r =
        .ok (some (order.bit r.current r.used)) { r with used := r.used + 1 } := by
      simp only [nextBit, bind_of_ok (get_apply r), if_pos hused]
      rfl
    have hrest := ih (r := { r with used := r.used + 1 }) (by dsimp only; omega)
    rw [Nat.add_right_comm, takeBits, bind_of_ok hbit]
    dsimp only at hrest ⊢
    rw [show r.used + (take + 1) = r.used + 1 + take by omega]
    cases htake : takeBits order width more { r with used := r.used + 1 + take } with
    | ok bits r' =>
      rw [htake] at hrest
      rw [bind_of_ok hrest]
      have hdiv : (order.logical r.current).toNat / 2 ^ r.used / 2 =
          (order.logical r.current).toNat / 2 ^ (r.used + 1) := by
        rw [Nat.div_div_eq_div_mul, Nat.pow_succ]
      have hfirst : ((order.logical r.current).toNat / 2 ^ r.used).testBit 0 =
          order.bit r.current r.used := by
        rw [Nat.testBit_div_two_pow, Nat.zero_add]
        rfl
      rw [Bits.ofNat, hdiv, hfirst]
      rfl
    | error e r' =>
      rw [htake] at hrest
      rw [bind_of_error hrest]

/-- Fetching a byte leaves the place in the byte at hand to whoever asked for it. -/
theorem used_of_pull {r' : Reader} {b : Option UInt8} (h : pull r = .ok b r') :
    r'.used = r.used := by
  unfold pull at h
  split at h
  · cases h
    rfl
  · split at h <;> cases h <;> rfl

theorem used_of_pull_error {r' : Reader} {e : Error} (h : pull r = .error e r') :
    r'.used = r.used := by
  unfold pull at h
  split at h
  · cases h
  · split at h <;> cases h
    rfl

/-- Fetching first makes no difference to the bits that are taken. -/
theorem takeBits_of_fetch (order : BitOrder) {r' : Reader} {width filled : Nat} (hr : r.InByte)
    (hmore : filled < width) (h : fetch width filled r = .ok () r') :
    r'.used < 8 ∧
      takeBits order width (width - filled) r' = takeBits order width (width - filled) r := by
  simp only [fetch, bind_of_ok (get_apply r)] at h
  split at h
  · rename_i hused
    obtain ⟨pulled, r₁, hpull, h⟩ := bind_eq_ok.mp h
    cases pulled with
    | none => cases h
    | some b =>
      cases h
      refine ⟨Nat.zero_lt_succ 7, ?_⟩
      obtain ⟨count, hcount⟩ : ∃ count, width - filled = count + 1 := ⟨width - filled - 1, by omega⟩
      have hnext : nextBit order r = .ok (some (order.bit b 0)) { r₁ with
          current := b, used := 1, byteCount := r₁.byteCount + 1, fetched := r₁.fetched + 1 } := by
        simp only [nextBit, bind_of_ok (get_apply r), if_neg (show ¬ r.used < 8 by omega)]
        rw [bind_of_ok hpull]
        rfl
      rw [hcount, takeBits, bind_of_ok hnext]
      rfl
  · rename_i hused
    cases h
    exact ⟨Nat.lt_of_le_of_ne hr hused, rfl⟩

/-- A fetch that fails does so where the bits are taken one by one. -/
theorem takeBits_of_fetch_error (order : BitOrder) {r' : Reader} {width filled : Nat} {e : Error}
    (hmore : filled < width) (h : fetch width filled r = .error e r') :
    r'.InByte ∧ takeBits order width (width - filled) r = .error e r' := by
  simp only [fetch, bind_of_ok (get_apply r)] at h
  split at h
  · rename_i hused
    obtain ⟨count, hcount⟩ : ∃ count, width - filled = count + 1 := ⟨width - filled - 1, by omega⟩
    have hfull : ¬ r.used < 8 := by omega
    cases hpull : pull r with
    | ok pulled r₁ =>
      rw [bind_of_ok hpull] at h
      cases pulled with
      | some b => cases h
      | none =>
        cases h
        refine ⟨(used_of_pull hpull).trans hused |>.le, ?_⟩
        have hnext : nextBit order r = .ok none r' := by
          simp only [nextBit, bind_of_ok (get_apply r), if_neg hfull]
          rw [bind_of_ok hpull]
          rfl
        rw [hcount, takeBits, bind_of_ok hnext, ← hcount, Nat.sub_sub_self hmore.le]
        rfl
    | error e' r₁ =>
      rw [bind_of_error hpull] at h
      cases h
      refine ⟨(used_of_pull_error hpull).trans hused |>.le, ?_⟩
      have hnext : nextBit order r = .error e r' := by
        simp only [nextBit, bind_of_ok (get_apply r), if_neg hfull]
        rw [bind_of_error hpull]
      rw [hcount, takeBits, bind_of_error hnext]
  · cases h

/-- The induction is on the bits still to be taken; each round takes at least one. -/
theorem takeChunks_eq (order : BitOrder) {width filled : Nat} {out : UInt64} (hr : r.InByte)
    (hwidth : width ≤ 64) (hfilled : filled ≤ width) (hout : out.toNat < 2 ^ filled) :
    match takeBits order width (width - filled) r with
    | .ok bits r' =>
      takeChunks order width filled out r =
        .ok (.ofNat (out.toNat + 2 ^ filled * Bits.toNat bits)) r' ∧ r'.InByte
    | .error e r' => takeChunks order width filled out r = .error (.error e) r' ∧ r'.InByte := by
  induction hleft : width - filled using Nat.strongRecOn generalizing filled out r with
  | ind left ih =>
  subst hleft
  rw [takeChunks]
  by_cases hmore : filled < width
  · rw [if_pos hmore]
    cases hfetch : fetch width filled r with
    | error e r₁ =>
      obtain ⟨hr₁, hbits⟩ := takeBits_of_fetch_error order hmore hfetch
      rw [hbits]
      exact ⟨rfl, hr₁⟩
    | ok _ r₁ =>
      obtain ⟨hused, hbits⟩ := takeBits_of_fetch order hr hmore hfetch
      rw [← hbits]
      dsimp only
      rw [if_pos hused, if_pos (by omega)]
      -- A chunk is what is left of the byte at hand, or what is still missing of the number.
      generalize htake : min (8 - r₁.used) (width - filled) = take
      have hle : r₁.used + take ≤ 8 := by omega
      have hsplit : width - filled = take + (width - (filled + take)) := by omega
      have hchunk := toNat_chunk order hused (show take ≤ 8 by omega)
      have hlt : (r₁.chunk order take).toNat < 2 ^ take := by
        rw [hchunk]
        exact (Bits.toNat_lt _).trans_eq (by rw [Bits.length_ofNat])
      -- The chunk goes above the bits that were taken before and does not touch them.
      have hword := toNat_or_shiftLeft hout hlt (by omega) (by omega)
      have hout' : (out ||| r₁.chunk order take <<< UInt64.ofNat filled).toNat <
          2 ^ (filled + take) := by
        rw [hword, Nat.pow_add]
        calc out.toNat + 2 ^ filled * (r₁.chunk order take).toNat
            < 2 ^ filled + 2 ^ filled * (r₁.chunk order take).toNat := by omega
          _ = 2 ^ filled * ((r₁.chunk order take).toNat + 1) := by ring
          _ ≤ 2 ^ filled * 2 ^ take := Nat.mul_le_mul_left _ hlt
      have hrest := @ih _ (by omega) { r₁ with used := r₁.used + take } (filled + take) _ hle
        (by omega) hout' rfl
      rw [hsplit, takeBits_within hle]
      cases hbits' : takeBits order width (width - (filled + take))
          { r₁ with used := r₁.used + take } with
      | error e r' =>
        rw [hbits'] at hrest
        exact hrest
      | ok bits r' =>
        rw [hbits'] at hrest
        refine ⟨?_, hrest.2⟩
        rw [hrest.1, hword, hchunk, Bits.toNat_append, Bits.length_ofNat, Nat.pow_add]
        congr 2
        ring
  · rw [if_neg hmore, show width - filled = 0 by omega]
    exact ⟨by simp [Bits.toNat], hr⟩

/-! ## The operations -/

namespace Checked

/-- A number of 1 to 64 bits, the least significant first. -/
def readBits (width : Nat) (order : BitOrder) : CheckedM Reader UInt64 := do
  if width = 0 ∨ 64 < width then raise (.widthOutOfRange width)
  let n ← takeChunks order width 0 0
  modify fun r => { r with bitCount := r.bitCount + width }
  pure n

/-- Eight bits. -/
def readByte (order : BitOrder) : CheckedM Reader UInt8 := do
  let r ← get
  if r.used = 8 then
    match ← plainly pull with
    | none => raise (.bitsMissing 8 0)
    | some b =>
      modify fun r =>
        { r with
          byteCount := r.byteCount + 1, fetched := r.fetched + 1, bitCount := r.bitCount + 8 }
      pure (order.logical b)
  else
    let n ← readBits 8 order
    pure n.toUInt8

/-- Bytes read one by one. -/
def readEach (order : BitOrder) : (count : Nat) → CheckedM Reader (List UInt8)
  | 0 => pure []
  | count + 1 => do
    let b ← readByte order
    let more ← readEach order count
    pure (b :: more)

/-- Bytes in a row. -/
def readBytes (count : Nat) (order : BitOrder) : CheckedM Reader (List UInt8) := do
  let r ← get
  if r.used = 8 then plainly (readRun count order) else readEach order count

/-- A number of whole bytes. -/
def readNumber (size : Nat) (bytes : ByteOrder) (order : BitOrder) : CheckedM Reader Nat := do
  let found ← readEach order size
  pure (bytes.number found)

/-- The length of a text after its first byte. Its bytes stand at the end of a buffer of four. -/
def readTextLength (leading : UInt8) (order : BitOrder) : CheckedM Reader Nat := do
  if leading < 0x80 then pure leading.toNat
  else if 0x81 ≤ leading ∧ leading ≤ 0x84 then
    let count := (leading &&& 0x0F).toNat
    if 4 < count then fault (.index count 4)
    let found ← readEach order count
    let buffer := List.replicate (4 - count) 0 ++ found
    let length := ByteOrder.big.number buffer
    let first ← entry buffer (4 - count)
    if length < 0x80 ∨ first = 0 then raise (.longTextLength length)
    pure length
  else raise (.textPrefix leading)

/-- A text behind its length, or the mark that there is none. -/
def readText (order : BitOrder) : CheckedM Reader (Option String) := do
  let leading ← readByte order
  if leading = 0xFF then pure none
  else
    let length ← readTextLength leading order
    let found ← readBytes length order
    match Text.Utf8.decode found with
    | .ok text => pure (some text)
    | .error fault => raise (.notUtf8 fault)

/-- Reads bytes and forgets them. -/
def skipBytes : (count : Nat) → CheckedM Reader Unit
  | 0 => pure ()
  | count + 1 => do
    let _ ← readByte .lsb0
    skipBytes count

/-- Leaves a partly read byte and skips to a multiple of `n` bytes. -/
def align (n : Nat) : CheckedM Reader Unit := do
  plainly leaveByte
  let r ← get
  skipBytes ((n - r.byteCount % n) % n)

/-- An element of `width` bits cannot begin, and the bits that are left are zero. -/
def atEndFor (width : Nat) (order : BitOrder) : CheckedM Reader Bool := do
  if ← plainly hasByte then pure false
  else
    let r ← get
    if width ≤ r.buffered then pure false
    else if 0 < r.buffered then
      checkShift r.used 8
      if order.logical r.current >>> UInt8.ofNat r.used ≠ 0 then
        raise (.paddingNotZero r.buffered)
      else pure true
    else pure true

end Checked

theorem inByte_ofSource (source : Source) : (ofSource source).InByte := Nat.le_refl 8

theorem retains_pull : Retains InByte pull := by
  intro r hr
  cases h : pull r with
  | ok b r' => exact (used_of_pull h).trans_le hr
  | error e r' => exact (used_of_pull_error h).trans_le hr

theorem retains_hasByte : Retains InByte hasByte := by
  intro r hr
  cases hlook : r.lookahead with
  | some b =>
    simp only [hasByte, bind_of_ok (get_apply r), hlook]
    exact hr
  | none =>
    simp only [hasByte, bind_of_ok (get_apply r), hlook]
    refine (retains_pull.bind fun next => ?_) r hr
    exact Retains.bind (Retains.modify fun _ h => h) fun _ => Retains.pure _

theorem retains_isExhausted : Retains InByte isExhausted := by
  intro r hr
  simp only [isExhausted, bind_of_ok (get_apply r)]
  by_cases hused : r.used < 8
  · rw [if_pos hused]
    exact hr
  · rw [if_neg hused]
    exact (retains_hasByte.bind fun _ => Retains.pure _) r hr

theorem retains_readRun (count : Nat) (order : BitOrder) : Retains InByte (readRun count order) := by
  intro r hr
  simp only [readRun]
  generalize (if count = 0 then [] else r.lookahead.toList) = first
  generalize Source.takeUpTo (count - first.length) r.source.events = served
  by_cases hcount : (first ++ served.1).length = count
  · rw [if_pos hcount]
    exact hr
  · rw [if_neg hcount]
    cases r.source.failure <;> exact hr

theorem safe_leaveByte : Safe InByte id leaveByte (plainly leaveByte) :=
  Safe.plainly fun _ _ => Nat.le_refl 8

theorem safe_reset : Safe InByte id reset (plainly reset) :=
  Safe.plainly fun _ _ => Nat.le_refl 8

/-- The chunks are those of the loop, and no shift is by more than a word has. -/
theorem safe_readBits (width : Nat) (order : BitOrder) :
    Safe InByte id (readBits width order) (Checked.readBits width order) := by
  apply Safe.here
  intro r hr
  unfold readBits Checked.readBits
  by_cases hwidth : width = 0 ∨ 64 < width
  · rw [if_pos hwidth, if_pos hwidth]
    exact ⟨rfl, hr⟩
  · rw [if_neg hwidth, if_neg hwidth]
    have htake := takeChunks_eq order hr (show width ≤ 64 by omega) (Nat.zero_le width)
      (show (0 : UInt64).toNat < 2 ^ 0 by simp)
    rw [Nat.sub_zero] at htake
    cases hbits : takeBits order width width r with
    | ok bits r' =>
      have hsum : UInt64.toNat 0 + 2 ^ 0 * Bits.toNat bits = Bits.toNat bits := by simp
      rw [hbits] at htake
      dsimp only at htake
      rw [hsum] at htake
      simp only [bind_of_ok hbits, bind_of_ok htake.1]
      exact ⟨rfl, htake.2⟩
    | error e r' =>
      rw [hbits] at htake
      simp only [bind_of_error hbits, bind_of_error htake.1]
      exact ⟨rfl, htake.2⟩

theorem safe_readByte (order : BitOrder) :
    Safe InByte id (readByte order) (Checked.readByte order) := by
  apply Safe.get_bind
  intro r hr
  by_cases hused : r.used < 8
  · simp only [id_eq, if_pos hused, if_neg (show ¬ r.used = 8 by omega)]
    exact ((safe_readBits 8 order).bind fun _ => Safe.pure _) r hr
  · have hfull : r.used = 8 := Nat.le_antisymm hr (Nat.le_of_not_lt hused)
    simp only [id_eq, if_neg hused, if_pos hfull]
    refine ((Safe.plainly retains_pull).bind fun b => ?_) r hr
    cases b with
    | none => exact Safe.throw _
    | some b => exact Safe.bind (Safe.modify (fun _ => rfl) fun _ h => h) fun _ => Safe.pure _

theorem safe_readEach (order : BitOrder) (count : Nat) :
    Safe InByte id (readEach order count) (Checked.readEach order count) := by
  induction count with
  | zero => exact Safe.pure _
  | succ count ih =>
    exact (safe_readByte order).bind fun _ => ih.bind fun _ => Safe.pure _

/-- The bytes of a run are turned into their order where they stand. -/
theorem safe_readBytes (count : Nat) (order : BitOrder) :
    Safe InByte id (readBytes count order) (Checked.readBytes count order) := by
  apply Safe.get_bind
  intro r hr
  by_cases hused : r.used < 8
  · simp only [id_eq, if_pos hused, if_neg (show ¬ r.used = 8 by omega)]
    exact safe_readEach order count r hr
  · have hfull : r.used = 8 := Nat.le_antisymm hr (Nat.le_of_not_lt hused)
    simp only [id_eq, if_neg hused, if_pos hfull]
    exact Safe.plainly (retains_readRun count order) r hr

theorem safe_readNumber (size : Nat) (bytes : ByteOrder) (order : BitOrder) :
    Safe InByte id (readNumber size bytes order) (Checked.readNumber size bytes order) :=
  (safe_readEach order size).bind fun _ => Safe.pure _

/-- As many bytes are read as were asked for. -/
theorem length_of_readEach {order : BitOrder} {count : Nat} {found : List UInt8} {r r' : Reader}
    (h : readEach order count r = .ok found r') : found.length = count := by
  induction count generalizing found r with
  | zero =>
    cases h
    rfl
  | succ count ih =>
    obtain ⟨b, r₁, -, h⟩ := bind_eq_ok.mp h
    obtain ⟨more, r₂, hmore, h⟩ := bind_eq_ok.mp h
    cases h
    rw [List.length_cons, ih hmore]

/-- The mark of a longer length says how many bytes it has. -/
theorem count_of_mark {leading : UInt8} (h : 0x81 ≤ leading ∧ leading ≤ 0x84) :
    (leading &&& 0x0F).toNat = leading.toNat - 0x80 ∧ 0 < leading.toNat - 0x80 ∧
      leading.toNat - 0x80 ≤ 4 := by
  have hlow : 0x81 ≤ leading.toNat := UInt8.le_iff_toNat_le.mp h.1
  have hhigh : leading.toNat ≤ 0x84 := UInt8.le_iff_toNat_le.mp h.2
  have hmod : (leading &&& 0x0F).toNat = leading.toNat % 2 ^ 4 := by
    rw [UInt8.toNat_and]
    exact Nat.and_two_pow_sub_one_eq_mod _ 4
  omega

/-- The digits of a length fit into the word that they are put together in. -/
theorem safe_readTextLength (leading : UInt8) (order : BitOrder) :
    Safe InByte id (readTextLength leading order) (Checked.readTextLength leading order) := by
  unfold readTextLength Checked.readTextLength
  by_cases hshort : leading < 0x80
  · rw [if_pos hshort, if_pos hshort]
    exact Safe.pure _
  · rw [if_neg hshort, if_neg hshort]
    by_cases hmark : 0x81 ≤ leading ∧ leading ≤ 0x84
    · obtain ⟨hcount, hpos, hle⟩ := count_of_mark hmark
      rw [if_pos hmark, if_pos hmark]
      dsimp only
      rw [hcount, if_neg (Nat.not_lt.mpr hle)]
      refine (safe_readEach order _).bind_of_ok fun found r r' hfound => ?_
      have hlength := length_of_readEach hfound
      -- the first byte of the length stands in the buffer behind the zeros
      cases found with
      | nil =>
        rw [List.length_nil] at hlength
        omega
      | cons first found =>
        have hentry : (entry (List.replicate (4 - (leading.toNat - 0x80)) 0 ++ first :: found)
            (4 - (leading.toNat - 0x80)) : CheckedM Reader UInt8) = pure first := by
          unfold entry
          rw [List.getElem?_append_right (by rw [List.length_replicate]), List.length_replicate,
            Nat.sub_self]
          rfl
        rw [hentry, pure_bind, ByteOrder.number_big_zeros]
        simp only [List.head?_cons, Option.some_inj]
        split
        · exact (Safe.throw _).bind fun _ => Safe.pure _
        · exact Safe.pure _
    · rw [if_neg hmark, if_neg hmark]
      exact Safe.throw _

/-- The bytes of a text are checked before they become one. -/
theorem safe_readText (order : BitOrder) :
    Safe InByte id (readText order) (Checked.readText order) := by
  refine (safe_readByte order).bind fun leading => ?_
  split
  · exact Safe.pure _
  · refine (safe_readTextLength leading order).bind fun length => ?_
    refine (safe_readBytes length order).bind fun found => ?_
    cases Text.Utf8.decode found with
    | ok text => exact Safe.pure _
    | error fault => exact Safe.throw _

theorem safe_skipBytes (count : Nat) :
    Safe InByte id (skipBytes count) (Checked.skipBytes count) := by
  induction count with
  | zero => exact Safe.pure _
  | succ count ih => exact (safe_readByte .lsb0).bind fun _ => ih

theorem safe_align (n : Nat) : Safe InByte id (align n) (Checked.align n) := by
  refine safe_leaveByte.bind fun _ => ?_
  exact Safe.get_bind fun r hr => safe_skipBytes _ r hr

/-- The bits that are left of a byte are looked at only while there are some. -/
theorem safe_atEndFor (width : Nat) (order : BitOrder) :
    Safe InByte id (atEndFor width order) (Checked.atEndFor width order) := by
  refine (Safe.plainly retains_hasByte).bind fun more => ?_
  cases more with
  | true => exact Safe.pure _
  | false =>
    refine Safe.get_bind fun r hr => ?_
    simp only [id_eq]
    by_cases hroom : width ≤ r.buffered
    · rw [if_pos hroom, if_pos hroom]
      exact ⟨rfl, hr⟩
    · rw [if_neg hroom, if_neg hroom]
      by_cases hleft : 0 < r.buffered
      · have hused : r.used < 8 := by
          unfold buffered at hleft
          omega
        have hshift : order.logical r.current >>> UInt8.ofNat r.used ≠ 0 ↔
            (order.logical r.current).toNat / 2 ^ r.used ≠ 0 := by
          rw [ne_eq, ← UInt8.toNat_inj, UInt8.toNat_shiftRight, UInt8.toNat_ofNat',
            Nat.shiftRight_eq_div_pow, Nat.mod_eq_of_lt (show r.used < 2 ^ 8 by omega),
            Nat.mod_eq_of_lt hused]
          rfl
        rw [if_pos hleft]
        refine Safe.checkShift hused ?_ r hr
        by_cases hzero : (order.logical r.current).toNat / 2 ^ r.used ≠ 0
        · rw [if_pos ⟨hleft, hzero⟩, if_pos (hshift.mpr hzero)]
          exact Safe.throw _
        · rw [if_neg fun h => hzero h.2, if_neg fun h => hzero (hshift.mp h)]
          exact Safe.pure _
      · rw [if_neg hleft, if_neg fun h => hleft h.1]
        exact ⟨rfl, hr⟩

end Reader

/-- Carries out a reading program. -/
def ReadProgram.checkedRun (order : BitOrder) : ReadProgram → CheckedM Reader Value
  | .done result => settled result
  | .bits width next => do
    let answer ← checkedOutcome (Reader.Checked.readBits width.toNat order)
    (next answer).checkedRun order
  | .byte next => do
    let answer ← checkedOutcome (Reader.Checked.readByte order)
    (next answer).checkedRun order
  | .exhausted next => do
    let answer ← checkedOutcome (plainly Reader.isExhausted)
    (next answer).checkedRun order
  | .measured next => do
    let r ← get
    (next r.remaining).checkedRun order

open Reader in
/-- A program of requests finds no fault, since none of its requests does. -/
theorem ReadProgram.safe_run (order : BitOrder) (p : ReadProgram) :
    Safe InByte id (p.run order) (p.checkedRun order) := by
  induction p with
  | done result => exact Safe.settle result
  | bits width next ih => exact (safe_readBits _ order).outcome.bind ih
  | byte next ih => exact (safe_readByte order).outcome.bind ih
  | exhausted next ih => exact (Safe.plainly retains_isExhausted).outcome.bind ih
  | measured next ih => exact Safe.get_bind fun r hr => ih r.remaining r hr

end RecordLayout
