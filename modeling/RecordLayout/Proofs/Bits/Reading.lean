import RecordLayout.Proofs.Bits.Taking

/-!
# Reading operations

Each reading operation has two lemmas. From its success follow the bits that it took and the value
that they spell; and from the bits ahead follows its success. What the bits of a value are does not
depend on the bit order, since the bits of a stream are those of its logical bytes.
-/

namespace RecordLayout

namespace Reader

/-! ## Single bits -/

theorem ahead_of_aligned {r : Reader} (h : ¬ r.used < 8) (order : BitOrder) :
    r.ahead order = order.stream r.unfetched := by
  rw [ahead, List.drop_of_length_le (by rw [Bits.length_ofNat]; omega), List.nil_append]

/-- The next byte, if it was not looked at before, comes from the source. -/
theorem pull_of_cons {r : Reader} {b : UInt8} {bs : List UInt8} (h : r.unfetched = b :: bs) :
    ∃ source : Source, pull r = .ok (some b) { r with lookahead := none, source := source } ∧
      source.bytes = bs ∧ source.failure = r.source.failure := by
  rcases r with ⟨source, lookahead, current, used, bitCount, byteCount, fetched⟩
  cases lookahead with
  | some c =>
    simp only [unfetched, Option.toList_some, List.cons_append, List.nil_append,
      List.cons.injEq] at h
    obtain ⟨rfl, rfl⟩ := h
    exact ⟨source, rfl, rfl, rfl⟩
  | none =>
    obtain ⟨rest, hnext, hbytes, hfailure⟩ := Source.next_of_bytes_cons (s := source) h
    refine ⟨rest, ?_, hbytes, hfailure⟩
    simp only [pull, hnext]

/-- Where no byte is left, a pull tells whether the source ends or fails. -/
theorem pull_of_spent {r : Reader} (h : r.unfetched = []) :
    ∃ source : Source, source.bytes = [] ∧ source.failure = r.source.failure ∧
      pull r = match r.source.failure with
        | none => .ok none (r.withBytes source none)
        | some message => .error (.device message) (r.withBytes source none) := by
  obtain ⟨hlookahead, hbytes⟩ := List.append_eq_nil_iff.mp h
  rw [Option.toList_eq_nil_iff] at hlookahead
  refine ⟨⟨[], r.source.failure⟩, rfl, rfl, ?_⟩
  unfold pull
  rw [hlookahead, Source.next_of_spent hbytes]
  cases r.source.failure <;> simp only [withBytes]

theorem pull_of_nil {r r' : Reader} {b : UInt8} (h : r.unfetched = []) :
    pull r ≠ .ok (some b) r' := by
  obtain ⟨source, -, -, hpull⟩ := pull_of_spent h
  rw [hpull]
  cases r.source.failure <;> nofun

/-- A bit of the byte being read. -/
theorem takes_next {r : Reader} (hs : r.Sound) (hused : r.used < 8) :
    Takes 1 r { r with used := r.used + 1 } := by
  have hpos := hs.position_add
  have hoff := hs.offset_add
  have hcount := hs.counted hused
  have hfetched := hs.fetched
  refine ⟨⟨?_, fun order => ?_, ?_, ⟨?_, ?_, ?_, hs.fetched⟩, rfl⟩, ?_⟩
  · rw [remaining_eq]
    simp only [buffered]
    omega
  · have hlen : (Bits.ofNat (order.logical r.current).toNat 8).length = 8 := by simp
    simp only [ahead, unfetched]
    rw [List.drop_append_of_le_length (by rw [List.length_drop]; omega), List.drop_drop]
  · simp only [offset, buffered] at hoff ⊢
    omega
  · exact Nat.succ_pos _
  · exact hused
  · exact fun _ => hcount
  · simp only [position, buffered] at hpos ⊢
    omega

/-- The first bit of a byte that is fetched. -/
theorem takes_fetch {r : Reader} {b : UInt8} {source : Source} (hs : r.Sound)
    (hused : ¬ r.used < 8) (h : r.unfetched = b :: source.bytes)
    (hfailure : source.failure = r.source.failure) :
    Takes 1 r { r with
      lookahead := none, source := source, current := b, used := 1,
      byteCount := r.byteCount + 1, fetched := r.fetched + 1 } := by
  have hle := hs.used_le
  have hpos := hs.position_add
  have hoff := hs.offset_add
  have hfetched := hs.fetched
  refine ⟨⟨?_, fun order => ?_, ?_, ⟨Nat.one_pos, by simp, fun _ => Nat.succ_pos _, ?_⟩,
    hfailure⟩, ?_⟩
  · rw [remaining_eq, h, List.length_cons]
    omega
  · have hlen : 1 ≤ (Bits.ofNat (order.logical b).toNat 8).length := by simp
    rw [ahead_of_aligned hused, h, BitOrder.stream_cons, List.drop_append_of_le_length hlen]
    simp [ahead, unfetched]
  · simp only [offset, buffered] at hoff ⊢
    omega
  · exact Nat.succ_le_succ hfetched
  · simp only [position, buffered] at hpos ⊢
    omega

/-- As long as a bit remains there is a next one, and it is the first of those ahead. -/
theorem nextBit_of_pos {r : Reader} (hs : r.Sound) (h : 0 < r.remaining) (order : BitOrder) :
    ∃ b r', nextBit order r = .ok (some b) r' ∧ Takes 1 r r' ∧ (r.ahead order).take 1 = [b] := by
  by_cases hused : r.used < 8
  · refine ⟨order.bit r.current r.used, { r with used := r.used + 1 }, ?_, takes_next hs hused, ?_⟩
    · simp only [nextBit, bind_of_ok (get_apply r), hused, if_true]
      rfl
    · have hlt : r.used < (Bits.ofNat (order.logical r.current).toNat 8).length := by
        rw [Bits.length_ofNat]
        exact hused
      rw [ahead, List.drop_eq_getElem_cons hlt, List.cons_append, List.take_succ_cons,
        List.take_zero, Bits.getElem_ofNat, BitOrder.bit]
  · obtain ⟨b, bs, hbytes⟩ : ∃ b bs, r.unfetched = b :: bs := by
      rw [remaining_eq] at h
      cases hbytes : r.unfetched with
      | nil =>
        rw [hbytes] at h
        simp only [buffered, List.length_nil] at h
        omega
      | cons b bs => exact ⟨b, bs, rfl⟩
    obtain ⟨source, hpull, rfl, hfailure⟩ := pull_of_cons hbytes
    refine ⟨order.bit b 0, _, ?_, takes_fetch hs hused hbytes hfailure, ?_⟩
    · simp only [nextBit, bind_of_ok (get_apply r), hused, if_false, bind_of_ok hpull]
      rfl
    · rw [ahead_of_aligned hused, hbytes, BitOrder.stream_cons]
      rfl

/-- A bit that was read was there. -/
theorem pos_of_nextBit {r r' : Reader} {b : Bool} {order : BitOrder}
    (h : nextBit order r = .ok (some b) r') : 0 < r.remaining := by
  by_cases hused : r.used < 8
  · rw [remaining_eq]
    simp only [buffered]
    omega
  · simp only [nextBit, bind_of_ok (get_apply r), hused, if_false] at h
    obtain ⟨pulled, r₁, hpull, h⟩ := bind_eq_ok.mp h
    cases pulled with
    | none => simp at h
    | some c =>
      cases hbytes : r.unfetched with
      | nil => exact absurd hpull (pull_of_nil hbytes)
      | cons d ds =>
        rw [remaining_eq, hbytes, List.length_cons]
        omega

/-! ## Numbers of bits -/

/-- As many bits as remain can be taken, and they are the first ones ahead. -/
theorem takeBits_of_le {r : Reader} (hs : r.Sound) (order : BitOrder) (width count : Nat)
    (h : count ≤ r.remaining) :
    ∃ r', takeBits order width count r = .ok ((r.ahead order).take count) r' ∧
      Takes count r r' := by
  induction count generalizing r with
  | zero => exact ⟨r, rfl, Takes.refl hs⟩
  | succ count ih =>
    obtain ⟨b, r₁, hnext, htakes, hbit⟩ := nextBit_of_pos hs (by omega) order
    have hrem := htakes.remaining
    obtain ⟨r₂, hmore, htakes'⟩ := ih htakes.sound (by omega)
    refine ⟨r₂, ?_, ?_⟩
    · rw [takeBits, bind_of_ok hnext]
      simp only [bind_of_ok hmore, pure_apply]
      rw [htakes.ahead order, Nat.add_comm count 1, List.take_add, hbit]
      rfl
    · rw [Nat.add_comm]
      exact htakes.trans htakes'

/-- Bits that were taken were there. -/
theorem le_of_takeBits {r r' : Reader} {order : BitOrder} {width count : Nat} {bits : List Bool}
    (hs : r.Sound) (h : takeBits order width count r = .ok bits r') : count ≤ r.remaining := by
  induction count generalizing r r' bits with
  | zero => exact Nat.zero_le _
  | succ count ih =>
    rw [takeBits] at h
    obtain ⟨next, r₁, hnext, h⟩ := bind_eq_ok.mp h
    cases next with
    | none => simp at h
    | some b =>
      obtain ⟨more, r₂, hmore, -⟩ := bind_eq_ok.mp h
      obtain ⟨b', r₁', hnext', htakes, -⟩ := nextBit_of_pos hs (pos_of_nextBit hnext) order
      rw [hnext] at hnext'
      cases hnext'
      have hrem := htakes.remaining
      have := ih htakes.sound hmore
      omega

/-- The bits of a number are the first ones ahead, the lowest first. -/
theorem readBits_of_le {r : Reader} (hs : r.Sound) (order : BitOrder) {width : Nat}
    (hpos : 0 < width) (hle : width ≤ 64) (h : width ≤ r.remaining) :
    ∃ r', readBits width order r = .ok (.ofNat (Bits.toNat ((r.ahead order).take width))) r' ∧
      Takes width r r' := by
  obtain ⟨r₁, htake, htakes⟩ := takeBits_of_le hs order width width h
  refine ⟨_, ?_, htakes.counting (r₁.bitCount + width)⟩
  have hwidth : ¬ (width = 0 ∨ 64 < width) := by omega
  simp only [readBits, hwidth, if_false]
  exact bind_of_ok htake

/-- A number that was read has a width that a word can hold, and its bits were there. -/
theorem le_of_readBits {r r' : Reader} {order : BitOrder} {width : Nat} {n : UInt64}
    (hs : r.Sound) (h : readBits width order r = .ok n r') :
    0 < width ∧ width ≤ 64 ∧ width ≤ r.remaining := by
  unfold readBits at h
  by_cases hwidth : width = 0 ∨ 64 < width
  · simp [hwidth, bind, EStateM.bind] at h
  · simp only [hwidth, if_false] at h
    obtain ⟨bits, r₁, htake, -⟩ := bind_eq_ok.mp h
    exact ⟨by omega, by omega, le_of_takeBits hs htake⟩

/-- A number is read exactly from its own bits. -/
theorem readBits_of_ahead {r : Reader} (hs : r.Sound) {order : BitOrder} {width n : Nat}
    {rest : List Bool} (hpos : 0 < width) (hle : width ≤ 64) (hn : n < 2 ^ width)
    (h : r.ahead order = Bits.ofNat n width ++ rest) :
    ∃ r', readBits width order r = .ok (.ofNat n) r' ∧ Takes width r r' := by
  have hlen : width ≤ r.remaining := by
    rw [← length_ahead order, h, List.length_append, Bits.length_ofNat]
    omega
  obtain ⟨r', hread, htakes⟩ := readBits_of_le hs order hpos hle hlen
  refine ⟨r', ?_, htakes⟩
  rw [hread, h, List.take_left' (Bits.length_ofNat n width), Bits.toNat_ofNat,
    Nat.mod_eq_of_lt hn]

/-- A number is read from its own bits, which are the ones in front of the rest. -/
theorem readBits_eq_ok {r r' : Reader} (hs : r.Sound) {order : BitOrder} {width : Nat}
    {n : UInt64} (h : readBits width order r = .ok n r') :
    Takes width r r' ∧ n.toNat < 2 ^ width ∧
      r.ahead order = Bits.ofNat n.toNat width ++ r'.ahead order := by
  obtain ⟨hpos, hle, hrem⟩ := le_of_readBits hs h
  obtain ⟨r₁, hread, htakes⟩ := readBits_of_le hs order hpos hle hrem
  rw [h] at hread
  cases hread
  have hlen : ((r.ahead order).take width).length = width := by
    rw [List.length_take, length_ahead]
    omega
  have hlt := Bits.toNat_lt ((r.ahead order).take width)
  rw [hlen] at hlt
  have h64 : (2 : Nat) ^ width ≤ 2 ^ 64 := Nat.pow_le_pow_right (by decide) hle
  have hn : (UInt64.ofNat (Bits.toNat ((r.ahead order).take width))).toNat =
      Bits.toNat ((r.ahead order).take width) := by
    rw [UInt64.toNat_ofNat']
    exact Nat.mod_eq_of_lt (Nat.lt_of_lt_of_le hlt h64)
  refine ⟨htakes, by rwa [hn], ?_⟩
  have hbits := Bits.ofNat_toNat ((r.ahead order).take width)
  rw [hlen] at hbits
  rw [hn, hbits]
  exact htakes.ahead_eq order

/-! ## Bytes -/

/-- A whole byte that is fetched at a byte boundary. -/
theorem takes_whole {r : Reader} {b : UInt8} {source : Source} (hs : r.Sound)
    (hused : ¬ r.used < 8) (h : r.unfetched = b :: source.bytes)
    (hfailure : source.failure = r.source.failure) :
    Takes 8 r { r with
      lookahead := none, source := source, byteCount := r.byteCount + 1,
      fetched := r.fetched + 1 } := by
  have hle := hs.used_le
  have hpos := hs.position_add
  have hoff := hs.offset_add
  refine ⟨⟨?_, fun order => ?_, ?_, ⟨hs.used_pos, hle, fun _ => Nat.succ_pos _,
    Nat.succ_le_succ hs.fetched⟩, hfailure⟩, ?_⟩
  · rw [remaining_eq, h, List.length_cons]
    omega
  · rw [ahead_of_aligned hused, h, BitOrder.stream_cons,
      List.drop_left' (Bits.length_ofNat _ _)]
    refine (ahead_of_aligned ?_ order).trans ?_
    · exact hused
    · simp [unfetched]
  · simp only [offset, buffered] at hoff ⊢
    omega
  · simp only [position, buffered] at hpos ⊢
    omega

/-- The eight bits of a byte are read as the byte, wherever it begins. -/
theorem readByte_of_ahead {r : Reader} (hs : r.Sound) {order : BitOrder} {b : UInt8}
    {rest : List Bool} (h : r.ahead order = Bits.ofNat b.toNat 8 ++ rest) :
    ∃ r', readByte order r = .ok b r' ∧ Takes 8 r r' := by
  by_cases hused : r.used < 8
  · obtain ⟨r', hread, htakes⟩ :=
      readBits_of_ahead hs (by decide) (by decide) b.toNat_lt h
    refine ⟨r', ?_, htakes⟩
    simp only [readByte, bind_of_ok (get_apply r), hused, if_true]
    refine (bind_of_ok hread).trans ?_
    simp only [pure_apply, EStateM.Result.ok.injEq, and_true]
    apply UInt8.toNat_inj.mp
    have := b.toNat_lt
    simp only [UInt64.toNat_toUInt8, UInt64.toNat_ofNat']
    omega
  · rw [ahead_of_aligned hused] at h
    cases hbytes : r.unfetched with
    | nil =>
      have := congrArg List.length h
      simp [hbytes] at this
      omega
    | cons c cs =>
      rw [hbytes, BitOrder.stream_cons] at h
      obtain ⟨hhead, -⟩ := List.append_inj h (by simp)
      have hlogical := Bits.ofNat_uint8_inj hhead
      obtain ⟨source, hpull, rfl, hfailure⟩ := pull_of_cons hbytes
      refine ⟨_, ?_, (takes_whole hs hused hbytes hfailure).counting (r.bitCount + 8)⟩
      simp only [readByte, bind_of_ok (get_apply r), hused, if_false, bind_of_ok hpull]
      rw [← hlogical]
      rfl

theorem readByte_of_le {r : Reader} (hs : r.Sound) (order : BitOrder) (h : 8 ≤ r.remaining) :
    ∃ b r', readByte order r = .ok b r' ∧ Takes 8 r r' := by
  have hlen : ((r.ahead order).take 8).length = 8 := by
    rw [List.length_take, length_ahead]
    omega
  obtain ⟨b, hb⟩ := Bits.exists_ofNat_eq hlen
  have hahead : r.ahead order = Bits.ofNat b.toNat 8 ++ (r.ahead order).drop 8 := by
    rw [hb, List.take_append_drop]
  obtain ⟨r', hread, htakes⟩ := readByte_of_ahead hs hahead
  exact ⟨b, r', hread, htakes⟩

theorem le_of_readByte {r r' : Reader} {order : BitOrder} {b : UInt8} (hs : r.Sound)
    (h : readByte order r = .ok b r') : 8 ≤ r.remaining := by
  by_cases hused : r.used < 8
  · simp only [readByte, bind_of_ok (get_apply r), hused, if_true] at h
    obtain ⟨n, r₁, hread, -⟩ := bind_eq_ok.mp h
    exact (le_of_readBits hs hread).2.2
  · simp only [readByte, bind_of_ok (get_apply r), hused, if_false] at h
    obtain ⟨pulled, r₁, hpull, h⟩ := bind_eq_ok.mp h
    cases pulled with
    | none => simp at h
    | some c =>
      cases hbytes : r.unfetched with
      | nil => exact absurd hpull (pull_of_nil hbytes)
      | cons d ds =>
        rw [remaining_eq, hbytes, List.length_cons]
        omega

/-- A byte is read from its own eight bits. -/
theorem readByte_eq_ok {r r' : Reader} (hs : r.Sound) {order : BitOrder} {b : UInt8}
    (h : readByte order r = .ok b r') :
    Takes 8 r r' ∧ r.ahead order = Bits.ofNat b.toNat 8 ++ r'.ahead order := by
  have hlen : ((r.ahead order).take 8).length = 8 := by
    have := le_of_readByte hs h
    rw [List.length_take, length_ahead]
    omega
  obtain ⟨c, hc⟩ := Bits.exists_ofNat_eq hlen
  have hahead : r.ahead order = Bits.ofNat c.toNat 8 ++ (r.ahead order).drop 8 := by
    rw [hc, List.take_append_drop]
  obtain ⟨r₁, hread, htakes⟩ := readByte_of_ahead hs hahead
  rw [h] at hread
  cases hread
  exact ⟨htakes, hc ▸ htakes.ahead_eq order⟩

/-- A byte ahead is read, and what stood behind it is ahead then. -/
theorem readByte_past {r : Reader} (hs : r.Sound) {order : BitOrder} {b : UInt8}
    {rest : List Bool} (h : r.ahead order = Bits.ofNat b.toNat 8 ++ rest) :
    ∃ r', readByte order r = .ok b r' ∧ Takes 8 r r' ∧ r'.ahead order = rest := by
  obtain ⟨r', hread, htakes⟩ := readByte_of_ahead hs h
  have hlen : 8 = (Bits.ofNat b.toNat 8).length := by simp
  exact ⟨r', hread, htakes, Consumes.rest_eq (hlen ▸ htakes.toConsumes) h⟩

/-- Bytes that are ahead are read one by one. -/
theorem readEach_of_ahead {order : BitOrder} {bs : List UInt8} {rest : List Bool} {r : Reader}
    (hs : r.Sound) (h : r.ahead order = Bits.ofBytes bs ++ rest) :
    ∃ r', readEach order bs.length r = .ok bs r' ∧ Takes (8 * bs.length) r r' := by
  induction bs generalizing r with
  | nil => exact ⟨r, rfl, Takes.refl hs⟩
  | cons b bs ih =>
    rw [Bits.ofBytes_cons, List.append_assoc] at h
    obtain ⟨r₁, hread, htakes, h⟩ := readByte_past hs h
    obtain ⟨r₂, hmore, htakes'⟩ := ih htakes.sound h
    refine ⟨r₂, ?_, ?_⟩
    · simp only [List.length_cons, readEach, bind_of_ok hread, bind_of_ok hmore, pure_apply]
    · rw [List.length_cons, Nat.mul_succ, Nat.add_comm]
      exact htakes.trans htakes'

/-- Bytes that were read one by one were ahead in this order. -/
theorem readEach_eq_ok {order : BitOrder} {count : Nat} {bs : List UInt8} {r r' : Reader}
    (hs : r.Sound) (h : readEach order count r = .ok bs r') :
    Takes (8 * count) r r' ∧ bs.length = count ∧
      r.ahead order = Bits.ofBytes bs ++ r'.ahead order := by
  induction count generalizing r bs with
  | zero =>
    cases h
    exact ⟨Takes.refl hs, rfl, rfl⟩
  | succ count ih =>
    rw [readEach] at h
    obtain ⟨b, r₁, hread, h⟩ := bind_eq_ok.mp h
    obtain ⟨more, r₂, hmore, h⟩ := bind_eq_ok.mp h
    cases h
    obtain ⟨htakes, hahead⟩ := readByte_eq_ok hs hread
    obtain ⟨htakes', hlen, hahead'⟩ := ih htakes.sound hmore
    refine ⟨?_, by rw [List.length_cons, hlen], ?_⟩
    · rw [Nat.mul_succ, Nat.add_comm]
      exact htakes.trans htakes'
    · rw [hahead, hahead', Bits.ofBytes_cons, List.append_assoc]

/-! ## Runs of bytes -/

/-- The bytes that a run takes from the lookahead. -/
def lookedAt (r : Reader) (count : Nat) : List UInt8 :=
  if count = 0 then [] else r.lookahead.toList

/-- The reader behind a run of bytes. -/
def pastRun (r : Reader) (count : Nat) : Reader :=
  { r with
    lookahead := if count = 0 then r.lookahead else none
    source :=
      ⟨(Source.takeUpTo (count - (r.lookedAt count).length) r.source.events).2, r.source.failure⟩
    byteCount := r.byteCount + count
    fetched := r.fetched + count
    bitCount := r.bitCount + 8 * count }

/-- A run takes its bytes from the lookahead and then from the source. -/
theorem run_eq (r : Reader) (count : Nat) :
    r.lookedAt count ++
        (Source.takeUpTo (count - (r.lookedAt count).length) r.source.events).1 =
      r.unfetched.take count ∧
    (r.pastRun count).unfetched = r.unfetched.drop count := by
  have htake := fun n => Source.takeUpTo_bytes n r.source.events r.source.failure
  simp only [unfetched, pastRun, lookedAt]
  cases count with
  | zero => simpa using htake 0
  | succ count =>
    cases r.lookahead with
    | none => simpa using htake (count + 1)
    | some b => simpa using htake count

/-- A run of bytes is taken exactly if there are so many, and each is turned into the order. -/
theorem readRun_eq_ok_iff {r r' : Reader} {order : BitOrder} {count : Nat} {bs : List UInt8} :
    readRun count order r = .ok bs r' ↔
      count ≤ r.unfetched.length ∧ bs = (r.unfetched.take count).map order.logical ∧
        r' = r.pastRun count := by
  have hrun := (run_eq r count).1
  simp only [lookedAt] at hrun
  simp only [readRun]
  rw [hrun]
  by_cases h : (r.unfetched.take count).length = count
  · have hle : count ≤ r.unfetched.length := by
      rw [List.length_take] at h
      omega
    simp only [h, if_true, EStateM.Result.ok.injEq, hle, true_and]
    constructor
    · rintro ⟨rfl, rfl⟩
      exact ⟨rfl, rfl⟩
    · rintro ⟨rfl, rfl⟩
      exact ⟨rfl, rfl⟩
  · have hlt : ¬ count ≤ r.unfetched.length := by
      rw [List.length_take] at h
      omega
    simp only [h, if_false, hlt, false_and, iff_false]
    cases r.source.failure <;> simp

/-- The reader behind a run has taken eight bits for each byte. -/
theorem takes_pastRun {r : Reader} (hs : r.Sound) (hused : ¬ r.used < 8) {count : Nat}
    (h : count ≤ r.unfetched.length) : Takes (8 * count) r (r.pastRun count) := by
  have hle := hs.used_le
  have hpos := hs.position_add
  have hoff := hs.offset_add
  have hfetched := hs.fetched
  refine ⟨⟨?_, fun order => ?_, ?_, ⟨hs.used_pos, hle, ?_, ?_⟩, rfl⟩, ?_⟩
  · rw [remaining_eq]
    omega
  · have haligned : ¬ (r.pastRun count).used < 8 := hused
    rw [ahead_of_aligned hused, ahead_of_aligned haligned, (run_eq r count).2,
      BitOrder.stream_drop]
  · simp only [offset, buffered, pastRun] at hoff ⊢
    omega
  · exact fun h => absurd h hused
  · simp only [pastRun]
    omega
  · simp only [position, buffered, pastRun] at hpos ⊢
    omega

/-- Bytes that are ahead are read, by the run or one by one. -/
theorem readBytes_of_ahead {order : BitOrder} {bs : List UInt8} {rest : List Bool} {r : Reader}
    (hs : r.Sound) (h : r.ahead order = Bits.ofBytes bs ++ rest) :
    ∃ r', readBytes bs.length order r = .ok bs r' ∧ Takes (8 * bs.length) r r' := by
  by_cases hused : r.used < 8
  · obtain ⟨r', hread, htakes⟩ := readEach_of_ahead hs h
    refine ⟨r', ?_, htakes⟩
    simp only [readBytes, bind_of_ok (get_apply r), hused, if_true, hread]
  · rw [ahead_of_aligned hused] at h
    have hlen : bs.length ≤ r.unfetched.length := by
      have := congrArg List.length h
      simp only [BitOrder.length_stream, List.length_append, Bits.length_ofBytes] at this
      omega
    have hbytes : (r.unfetched.take bs.length).map order.logical = bs := by
      apply Bits.ofBytes_inj
      have htake := order.stream_take r.unfetched bs.length
      rw [h, List.take_left' (Bits.length_ofBytes bs)] at htake
      exact htake
    refine ⟨_, ?_, takes_pastRun hs hused hlen⟩
    simp only [readBytes, bind_of_ok (get_apply r), hused, if_false]
    exact readRun_eq_ok_iff.mpr ⟨hlen, hbytes.symm, rfl⟩

/-- Bytes that were read were ahead, whichever way they were read. -/
theorem readBytes_eq_ok {order : BitOrder} {count : Nat} {bs : List UInt8} {r r' : Reader}
    (hs : r.Sound) (h : readBytes count order r = .ok bs r') :
    Takes (8 * count) r r' ∧ bs.length = count ∧
      r.ahead order = Bits.ofBytes bs ++ r'.ahead order := by
  simp only [readBytes, bind_of_ok (get_apply r)] at h
  by_cases hused : r.used < 8
  · simp only [hused, if_true] at h
    exact readEach_eq_ok hs h
  · simp only [hused, if_false] at h
    obtain ⟨hlen, rfl, rfl⟩ := readRun_eq_ok_iff.mp h
    have htakes := takes_pastRun hs hused hlen
    refine ⟨htakes, ?_, ?_⟩
    · rw [List.length_map, List.length_take]
      omega
    · refine (htakes.ahead_eq order).trans ?_
      rw [ahead_of_aligned hused, ← BitOrder.stream_take]
      rfl

end Reader

end RecordLayout
