import RecordLayout.Proofs.Bits.Spelling

/-!
# Bit counters

The positions of readers and writers are made of their byte counters and of the byte in work. Their
bit counters are kept apart from these; between two operations the bit counter and the position are
the same, so that either tells how far the stream has come since the last reset.
-/

namespace RecordLayout

/-- Where the operation succeeds, it keeps a property of the state. -/
def Keeps {ε σ α : Type} (P : σ → Prop) (m : EStateM ε σ α) : Prop :=
  ∀ s x s', P s → m s = .ok x s' → P s'

namespace Keeps

variable {ε σ α β : Type} {P : σ → Prop}

theorem pure (a : α) : Keeps P (Pure.pure a : EStateM ε σ α) := by
  rintro s x s' h ⟨⟩
  exact h

theorem throw (e : ε) : Keeps P (MonadExcept.throw e : EStateM ε σ α) := by
  rintro s x s' h ⟨⟩

theorem modify {u : σ → σ} (h : ∀ s, P s → P (u s)) :
    Keeps P (modify u : EStateM ε σ PUnit) := by
  rintro s x s' hs ⟨⟩
  exact h s hs

/-- What follows an operation matters only for the results that the operation can give. -/
theorem bind_of_ok {m : EStateM ε σ α} {g : α → EStateM ε σ β} (hm : Keeps P m)
    (hg : ∀ a s t, m s = .ok a t → Keeps P (g a)) : Keeps P (m >>= g) := by
  intro s x s' hs h
  obtain ⟨a, s₁, ha, h⟩ := bind_eq_ok.mp h
  exact hg a _ _ ha _ _ _ (hm _ _ _ hs ha) h

theorem bind {m : EStateM ε σ α} {g : α → EStateM ε σ β} (hm : Keeps P m)
    (hg : ∀ a, Keeps P (g a)) : Keeps P (m >>= g) :=
  hm.bind_of_ok fun a _ _ _ => hg a

theorem map {m : EStateM ε σ α} (g : α → β) (hm : Keeps P m) : Keeps P (g <$> m) := by
  intro s x s' hs h
  obtain ⟨a, ha, -⟩ := map_eq_ok.mp h
  exact hm _ _ _ hs ha

/-- An operation that begins with a look at the state. -/
theorem get_bind {g : σ → EStateM ε σ α} (h : ∀ s x s', P s → g s s = .ok x s' → P s') :
    Keeps P (get >>= g) := by
  intro s x s' hs hrun
  rw [RecordLayout.bind_of_ok (get_apply s)] at hrun
  exact h s x s' hs hrun

end Keeps

/-! ## Readers -/

namespace Reader

/-- What holds of a reader between two operations. -/
structure Tallied (r : Reader) : Prop where
  sound : r.Sound
  count : r.bitCount = r.position

theorem tallied_ofSource (source : Source) : (ofSource source).Tallied :=
  ⟨sound_ofSource source, rfl⟩

variable {r r' : Reader} {order : BitOrder}

/-- Bits that are taken and counted. -/
theorem Tallied.takes {n : Nat} (h : r.Tallied) (htakes : Takes n r r')
    (hcount : r'.bitCount = r.bitCount + n) : r'.Tallied :=
  ⟨htakes.sound, by rw [hcount, h.count, htakes.position]⟩

theorem keeps_pull (count : Nat) : Keeps (fun r => r.bitCount = count) pull := by
  intro r x r' hr h
  unfold pull at h
  split at h
  · cases h
    exact hr
  · split at h
    · cases h
      exact hr
    · cases h
      exact hr
    · cases h

/-- Single bits are counted by the operation that asks for them. -/
theorem keeps_nextBit (order : BitOrder) (count : Nat) :
    Keeps (fun r => r.bitCount = count) (nextBit order) := by
  refine Keeps.get_bind fun r x r' hr h => ?_
  split at h
  · cases h
    exact hr
  · refine Keeps.bind (keeps_pull count) (fun b => ?_) r x r' hr h
    cases b with
    | none => exact Keeps.pure _
    | some b => exact Keeps.bind (Keeps.modify fun _ => id) fun _ => Keeps.pure _

theorem keeps_takeBits (order : BitOrder) (width n count : Nat) :
    Keeps (fun r => r.bitCount = count) (takeBits order width n) := by
  induction n with
  | zero => exact Keeps.pure _
  | succ n ih =>
    refine Keeps.bind (keeps_nextBit order count) fun b => ?_
    cases b with
    | none => exact Keeps.throw _
    | some b => exact Keeps.bind ih fun _ => Keeps.pure _

/-- A number of bits is counted once they all have been taken. -/
theorem keeps_readBits (width : Nat) (order : BitOrder) :
    Keeps Tallied (readBits width order) := by
  intro r n r' hr h
  obtain ⟨htakes, -, -⟩ := readBits_eq_ok hr.sound h
  refine hr.takes htakes ?_
  obtain ⟨hpos, hle, -⟩ := le_of_readBits hr.sound h
  have hwidth : ¬ (width = 0 ∨ 64 < width) := by omega
  simp only [readBits, hwidth, if_false] at h
  obtain ⟨bits, r₁, htake, h⟩ := bind_eq_ok.mp h
  have hcount := keeps_takeBits order width width r.bitCount r _ _ rfl htake
  cases h
  exact congrArg (· + width) hcount

/-- A byte counts as eight bits, whether it is fetched whole or put together. -/
theorem keeps_readByte (order : BitOrder) : Keeps Tallied (readByte order) := by
  intro r b r' hr h
  obtain ⟨htakes, -⟩ := readByte_eq_ok hr.sound h
  simp only [readByte, bind_of_ok (get_apply r)] at h
  by_cases hused : r.used < 8
  · rw [if_pos hused] at h
    exact Keeps.bind (keeps_readBits 8 order) (fun _ => Keeps.pure _) _ _ _ hr h
  · rw [if_neg hused] at h
    obtain ⟨pulled, r₁, hpull, h⟩ := bind_eq_ok.mp h
    have hcount := keeps_pull r.bitCount r _ _ rfl hpull
    cases pulled with
    | none => cases h
    | some c =>
      cases h
      exact hr.takes htakes (congrArg (· + 8) hcount)

theorem keeps_readEach (order : BitOrder) (count : Nat) :
    Keeps Tallied (readEach order count) := by
  induction count with
  | zero => exact Keeps.pure _
  | succ count ih =>
    exact Keeps.bind (keeps_readByte order) fun _ => Keeps.bind ih fun _ => Keeps.pure _

/-- Bytes in a row are counted as if they were read one by one. -/
theorem keeps_readBytes (count : Nat) (order : BitOrder) :
    Keeps Tallied (readBytes count order) := by
  intro r bs r' hr h
  obtain ⟨htakes, -, -⟩ := readBytes_eq_ok hr.sound h
  simp only [readBytes, bind_of_ok (get_apply r)] at h
  by_cases hused : r.used < 8
  · rw [if_pos hused] at h
    exact keeps_readEach order count _ _ _ hr h
  · rw [if_neg hused] at h
    obtain ⟨-, -, rfl⟩ := readRun_eq_ok_iff.mp h
    exact hr.takes htakes rfl

theorem keeps_readNumber (size : Nat) (bytes : ByteOrder) (order : BitOrder) :
    Keeps Tallied (readNumber size bytes order) :=
  Keeps.bind (keeps_readEach order size) fun _ => Keeps.pure _

theorem keeps_readTextLength (leading : UInt8) (order : BitOrder) :
    Keeps Tallied (readTextLength leading order) := by
  unfold readTextLength
  split
  · exact Keeps.pure _
  · split
    · refine Keeps.bind (keeps_readEach order _) fun found => ?_
      dsimp only
      split
      · exact Keeps.throw _
      · exact Keeps.pure _
    · exact Keeps.throw _

/-- A text counts the bytes of its length and its own. -/
theorem keeps_readText (order : BitOrder) : Keeps Tallied (readText order) := by
  refine Keeps.bind (keeps_readByte order) fun leading => ?_
  split
  · exact Keeps.pure _
  · refine Keeps.bind (keeps_readTextLength leading order) fun length => ?_
    refine Keeps.bind (keeps_readBytes length order) fun found => ?_
    split
    · exact Keeps.pure _
    · exact Keeps.throw _

theorem keeps_skipBytes (count : Nat) : Keeps Tallied (skipBytes count) := by
  induction count with
  | zero => exact Keeps.pure _
  | succ count ih => exact Keeps.bind (keeps_readByte .lsb0) fun _ => ih

theorem keeps_align (n : Nat) : Keeps Tallied (align n) := by
  intro r x r' hr h
  rw [align_apply] at h
  exact keeps_skipBytes _ _ _ _ (hr.takes (takes_atByte hr.sound) rfl) h

end Reader

/-! ## Writers -/

namespace Writer

/-- What holds of a writer between two operations. -/
structure Tallied (w : Writer) : Prop where
  used_lt : w.used < 8
  count : w.bitCount = w.position

theorem tallied_ofSink (sink : Sink) : (ofSink sink).Tallied := ⟨Nat.zero_lt_succ 7, rfl⟩

variable {w w' : Writer} {order : BitOrder}

/-- A byte that goes to the sink leaves the writer as it was otherwise. -/
theorem eq_of_emit {b : UInt8} (h : emit b w = .ok () w') :
    ∃ sink, w' = { w with sink := sink, byteCount := w.byteCount + 1 } := by
  unfold emit at h
  split at h
  · cases h
    exact ⟨_, rfl⟩
  · cases h

/-- The second state is the first one `n` bits later, with the bit counter left alone. -/
structure Moves (n : Nat) (w w' : Writer) : Prop where
  used_lt : w'.used < 8
  position : w'.position = w.position + n
  count : w'.bitCount = w.bitCount

/-- A bit fills the byte or completes it, and the position moves by one. -/
theorem moves_putBit {b : Bool} (hused : w.used < 8) (h : putBit order b w = .ok () w') :
    Moves 1 w w' := by
  simp only [putBit, bind_of_ok (get_apply w)] at h
  split at h
  · rename_i hlow
    cases h
    exact ⟨Nat.succ_lt_succ hlow, rfl, rfl⟩
  · obtain ⟨sink, rfl⟩ := eq_of_emit h
    refine ⟨Nat.zero_lt_succ 7, ?_, rfl⟩
    simp only [position]
    omega

theorem moves_putBits {bits : List Bool} (hused : w.used < 8)
    (h : putBits order bits w = .ok () w') : Moves bits.length w w' := by
  induction bits generalizing w with
  | nil =>
    cases h
    exact ⟨hused, rfl, rfl⟩
  | cons b bits ih =>
    obtain ⟨_, w₁, hput, h⟩ := bind_eq_ok.mp h
    have hfirst := moves_putBit hused hput
    have hrest := ih hfirst.used_lt h
    refine ⟨hrest.used_lt, ?_, hrest.count.trans hfirst.count⟩
    rw [hrest.position, hfirst.position, List.length_cons, Nat.add_assoc, Nat.add_comm 1]

/-- A number of bits is counted once they all have been put. -/
theorem keeps_writeBits (value : UInt64) (width : Nat) (order : BitOrder) :
    Keeps Tallied (writeBits value width order) := by
  intro w x w' hw h
  unfold writeBits at h
  split at h
  · cases h
  · obtain ⟨_, w₁, hput, h⟩ := bind_eq_ok.mp h
    have hmoves := moves_putBits hw.used_lt hput
    have hposition := hmoves.position
    rw [Bits.length_ofNat] at hposition
    cases h
    refine ⟨hmoves.used_lt, ?_⟩
    exact (congrArg (· + width) (hmoves.count.trans hw.count)).trans hposition.symm

/-- A byte counts as eight bits, whether it goes to the sink whole or is spread over two. -/
theorem keeps_writeByte (b : UInt8) (order : BitOrder) : Keeps Tallied (writeByte b order) := by
  intro w x w' hw h
  simp only [writeByte, bind_of_ok (get_apply w)] at h
  split at h
  · obtain ⟨_, w₁, hemit, h⟩ := bind_eq_ok.mp h
    obtain ⟨sink, rfl⟩ := eq_of_emit hemit
    cases h
    have hcount := hw.count
    refine ⟨hw.used_lt, ?_⟩
    simp only [position] at hcount ⊢
    omega
  · exact keeps_writeBits _ 8 order _ _ _ hw h

theorem keeps_writeBytes (bs : List UInt8) (order : BitOrder) :
    Keeps Tallied (writeBytes bs order) := by
  induction bs with
  | nil => exact Keeps.pure _
  | cons b bs ih => exact Keeps.bind (keeps_writeByte b order) fun _ => ih

theorem keeps_writeText (text : Option String) (order : BitOrder) :
    Keeps Tallied (writeText text order) := by
  cases text with
  | none => exact keeps_writeByte _ order
  | some text =>
    unfold writeText
    dsimp only
    split
    · exact Keeps.throw _
    · exact Keeps.bind (keeps_writeBytes _ order) fun _ => keeps_writeBytes _ order

theorem keeps_skipBytes (count : Nat) : Keeps Tallied (skipBytes count) := by
  induction count with
  | zero => exact Keeps.pure _
  | succ count ih => exact Keeps.bind (keeps_writeByte 0 .lsb0) fun _ => ih

/-- Leaving a byte counts the bits that fill it up. -/
theorem keeps_leaveByte : Keeps Tallied leaveByte := by
  refine Keeps.get_bind fun w x w' hw h => ?_
  split at h
  · rename_i hused
    have hflush : emit w.current
        { w with bitCount := w.bitCount + (8 - w.used), current := 0, used := 0 } = .ok () w' := by
      have hopen : 0 < ({ w with bitCount := w.bitCount + (8 - w.used) } : Writer).used := hused
      rw [bind_of_ok (set_apply w _)] at h
      simp only [flushBits, bind_of_ok (get_apply _), if_pos hopen] at h
      exact h
    obtain ⟨sink, rfl⟩ := eq_of_emit hflush
    have hlt := hw.used_lt
    have hcount := hw.count
    refine ⟨Nat.zero_lt_succ 7, ?_⟩
    simp only [position] at hcount ⊢
    omega
  · cases h
    exact hw

theorem keeps_align (n : Nat) : Keeps Tallied (align n) :=
  Keeps.bind keeps_leaveByte fun _ =>
    Keeps.get_bind fun w x w' hw h => keeps_skipBytes _ w x w' hw h

end Writer

end RecordLayout
