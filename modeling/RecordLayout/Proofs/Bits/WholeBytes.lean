import RecordLayout.Proofs.Bits.Pairing
import RecordLayout.Proofs.Checked.Writing

/-!
# Whole bytes

A reader takes a byte that begins at a byte boundary whole, and a run of such bytes in one request,
and a writer gives such a byte to its sink whole. None of this can be told from eight bits at a time.

Bit by bit, a byte that is read to its end stays in the reader until the next one is fetched. Nothing
looks at it again, so what is told of a reader from outside leaves it out: every operation gives the
same from two readers that differ in such a byte only.
-/

namespace RecordLayout

namespace Source

/-- A run that begins with the next byte. -/
theorem takeUpTo_of_byte {failure : Option String} {events : List Event} {b : UInt8} {rest : Source}
    (h : request failure events = .byte b rest) (count : Nat) :
    takeUpTo (count + 1) events =
        (b :: (takeUpTo count rest.events).1, (takeUpTo count rest.events).2) ∧
      rest.failure = failure := by
  induction events with
  | nil => cases failure <;> cases h
  | cons e events ih =>
    cases e with
    | byte c =>
      cases h
      exact ⟨rfl, rfl⟩
    | interrupted => exact ih h

/-- There is no run behind the last byte. -/
theorem takeUpTo_of_ended {failure : Option String} {events : List Event}
    (h : request failure events = .ended) (count : Nat) :
    takeUpTo (count + 1) events = ([], []) := by
  induction events with
  | nil => rfl
  | cons e events ih =>
    cases e with
    | byte c => cases h
    | interrupted => exact ih h

end Source

namespace Reader

variable {α β : Type} {order : BitOrder} {r r' : Reader}

/-- The reader without a byte that is read to its end. -/
def outward (r : Reader) : Reader :=
  if r.used < 8 then r else { r with current := 0, used := 8 }

/-- What a reader looks like has all its counts and the bytes to come. -/
theorem outward_eq (r : Reader) :
    r.outward.source = r.source ∧ r.outward.lookahead = r.lookahead ∧
      r.outward.bitCount = r.bitCount ∧ r.outward.byteCount = r.byteCount ∧
      r.outward.fetched = r.fetched ∧ r.outward.buffered = r.buffered := by
  unfold outward
  split
  · exact ⟨rfl, rfl, rfl, rfl, rfl, rfl⟩
  · refine ⟨rfl, rfl, rfl, rfl, rfl, ?_⟩
    simp only [buffered]
    omega

/-- Two readers that look the same are the same up to a byte that is read to its end. -/
theorem eq_or_of_outward_eq (h : r.outward = r'.outward) :
    r' = r ∨ 8 ≤ r.used ∧ ∃ current used, 8 ≤ used ∧
      r' = { r with current := current, used := used } := by
  obtain ⟨source, lookahead, current, used, bitCount, byteCount, fetched⟩ := r
  obtain ⟨source', lookahead', current', used', bitCount', byteCount', fetched'⟩ := r'
  unfold outward at h
  dsimp only at h ⊢
  split at h <;> split at h <;> cases h
  · exact .inl rfl
  · omega
  · omega
  · exact .inr ⟨by omega, current', used', by omega, rfl⟩

theorem outward_of_le (h : 8 ≤ r.used) : r.outward = { r with current := 0, used := 8 } :=
  if_neg (Nat.not_lt.mpr h)

/-! ## What a byte that is read to its end has no part in -/

/-- From readers that look the same, both operations give the same and leave readers that look the
same. -/
def Alike (m m' : ReadM α) : Prop :=
  ∀ r r' : Reader, r.outward = r'.outward → onState outward (m r) = onState outward (m' r')

/-- What the operation does depends on what the reader looks like only. -/
abbrev Outward (m : ReadM α) : Prop := Alike m m

/-- What follows gives the same, as the readers behind the first operations look the same. -/
theorem Alike.bind {m m' : ReadM α} {g g' : α → ReadM β} (hm : Alike m m')
    (hg : ∀ a, Alike (g a) (g' a)) : Alike (m >>= g) (m' >>= g') := by
  intro r r' h
  have hfirst := hm r r' h
  cases hr : m r with
  | ok a t =>
    cases hr' : m' r' with
    | ok a' t' =>
      rw [hr, hr'] at hfirst
      obtain ⟨rfl, ht⟩ := EStateM.Result.ok.inj hfirst
      rw [bind_of_ok hr, bind_of_ok hr']
      exact hg a t t' ht
    | error e t' =>
      rw [hr, hr'] at hfirst
      cases hfirst
  | error e t =>
    cases hr' : m' r' with
    | ok a' t' =>
      rw [hr, hr'] at hfirst
      cases hfirst
    | error e' t' =>
      rw [hr, hr'] at hfirst
      rw [bind_of_error hr, bind_of_error hr']
      obtain ⟨rfl, ht⟩ := EStateM.Result.error.inj hfirst
      exact congrArg (EStateM.Result.error e) ht

namespace Outward

theorem pure (a : α) : Outward (Pure.pure a) :=
  fun _ _ h => congrArg (EStateM.Result.ok a) h

theorem throw (e : Error) : Outward (MonadExcept.throw e : ReadM α) :=
  fun _ _ h => congrArg (EStateM.Result.error e) h

theorem bind {m : ReadM α} {g : α → ReadM β} (hm : Outward m) (hg : ∀ a, Outward (g a)) :
    Outward (m >>= g) := Alike.bind hm hg

theorem map {m : ReadM α} (g : α → β) (hm : Outward m) : Outward (g <$> m) := by
  rw [← bind_pure_comp]
  exact hm.bind fun a => Outward.pure (g a)

/-- An operation that begins with a look at the state does the same whatever byte, read to its end,
is in it. -/
theorem get_bind {g : Reader → ReadM α} (hg : ∀ r, Outward (g r))
    (h : ∀ r : Reader, 8 ≤ r.used → ∀ current used, 8 ≤ used →
      g { r with current := current, used := used } = g r) : Outward (get >>= g) := by
  intro r r' hlook
  rw [bind_of_ok (get_apply r), bind_of_ok (get_apply r')]
  rcases eq_or_of_outward_eq hlook with rfl | ⟨hr, current, used, hused, rfl⟩
  · rfl
  · rw [h r hr current used hused]
    exact hg r _ _ hlook

theorem modify {u : Reader → Reader} (h : ∀ r r', r.outward = r'.outward →
    (u r).outward = (u r').outward) : Outward (modify u : ReadM PUnit) :=
  fun r r' hlook => congrArg (EStateM.Result.ok PUnit.unit) (h r r' hlook)

end Outward

/-- The next byte does not depend on the last one. -/
theorem outward_pull : Outward pull := by
  intro r r' h
  rcases eq_or_of_outward_eq h with rfl | ⟨hr, current, used, hused, rfl⟩
  · rfl
  · have hlook : ∀ r₁ : Reader, r₁.used = r.used →
        r₁.outward = ({ r₁ with current := current, used := used } : Reader).outward := by
      intro r₁ h₁
      rw [outward_of_le (h₁ ▸ hr), outward_of_le hused]
    unfold pull
    dsimp only
    cases r.lookahead with
    | some b => exact congrArg (EStateM.Result.ok (some b)) (hlook _ rfl)
    | none =>
      dsimp only
      cases r.source.next with
      | byte b rest => exact congrArg (EStateM.Result.ok (some b)) (hlook _ rfl)
      | ended => exact congrArg (EStateM.Result.ok none) (hlook _ rfl)
      | failed message => exact congrArg (EStateM.Result.error (Error.device message)) (hlook _ rfl)

theorem outward_hasByte : Outward hasByte := by
  refine Outward.get_bind (fun r => ?_) fun _ _ _ _ _ => rfl
  cases r.lookahead with
  | some b => exact Outward.pure _
  | none =>
    refine outward_pull.bind fun next => Outward.bind (Outward.modify fun r r' h => ?_)
      fun _ => Outward.pure _
    rcases eq_or_of_outward_eq h with rfl | ⟨hr, current, used, hused, rfl⟩
    · rfl
    · rw [outward_of_le (by exact hr), outward_of_le (by exact hused)]

/-- A bit comes from the byte at hand only if one is left there. -/
theorem outward_nextBit (order : BitOrder) : Outward (nextBit order) := by
  intro r r' h
  rcases eq_or_of_outward_eq h with rfl | ⟨hr, current, used, hused, rfl⟩
  · rfl
  · simp only [nextBit, bind_of_ok (get_apply _), if_neg (Nat.not_lt.mpr hr),
      if_neg (Nat.not_lt.mpr hused)]
    refine (outward_pull.bind fun next => ?_) r _ h
    cases next with
    | none => exact Outward.pure none
    | some b =>
      refine Outward.bind (Outward.modify fun r r' h => ?_) fun _ => Outward.pure _
      rcases eq_or_of_outward_eq h with rfl | ⟨hr, current, used, hused, rfl⟩ <;> rfl

theorem outward_takeBits (order : BitOrder) (width count : Nat) :
    Outward (takeBits order width count) := by
  induction count with
  | zero => exact Outward.pure _
  | succ count ih =>
    refine (outward_nextBit order).bind fun b => ?_
    cases b with
    | none => exact Outward.throw _
    | some b => exact ih.bind fun _ => Outward.pure _

/-- The bit counter may grow by an amount that looks the same. -/
theorem outward_counting (width : Nat) :
    Outward (modify fun r => { r with bitCount := r.bitCount + width } : ReadM PUnit) := by
  refine Outward.modify fun r r' h => ?_
  rcases eq_or_of_outward_eq h with rfl | ⟨hr, current, used, hused, rfl⟩
  · rfl
  · rw [outward_of_le (by exact hr), outward_of_le (by exact hused)]

theorem outward_readBits (width : Nat) (order : BitOrder) : Outward (readBits width order) := by
  unfold readBits
  split
  · exact Outward.throw _
  · exact (outward_takeBits order width width).bind fun _ =>
      (outward_counting width).bind fun _ => Outward.pure _

/-- The byte that a reader takes whole. -/
theorem outward_takeWhole (order : BitOrder) : Outward (do
    match ← pull with
    | none => MonadExcept.throw (Error.bitsMissing 8 0)
    | some b =>
      modify fun r => { r with
        byteCount := r.byteCount + 1, fetched := r.fetched + 1, bitCount := r.bitCount + 8 }
      Pure.pure (order.logical b)) := by
  refine outward_pull.bind fun next => ?_
  cases next with
  | none => exact Outward.throw _
  | some b =>
    refine Outward.bind (Outward.modify fun r r' h => ?_) fun _ => Outward.pure _
    rcases eq_or_of_outward_eq h with rfl | ⟨hr, current, used, hused, rfl⟩
    · rfl
    · rw [outward_of_le (by exact hr), outward_of_le (by exact hused)]

/-- Whether the byte at hand is used decides the path, and readers that look the same agree on it.
-/
theorem outward_readByte (order : BitOrder) : Outward (readByte order) := by
  refine Outward.get_bind (fun r => ?_) fun r hr current used hused => ?_
  · split
    · exact (outward_readBits 8 order).bind fun _ => Outward.pure _
    · exact outward_takeWhole order
  · rw [if_neg (Nat.not_lt.mpr hr), if_neg (Nat.not_lt.mpr hused)]

theorem outward_readEach (order : BitOrder) (count : Nat) : Outward (readEach order count) := by
  induction count with
  | zero => exact Outward.pure _
  | succ count ih =>
    exact (outward_readByte order).bind fun _ => ih.bind fun _ => Outward.pure _

theorem outward_readRun (count : Nat) (order : BitOrder) : Outward (readRun count order) := by
  intro r r' h
  rcases eq_or_of_outward_eq h with rfl | ⟨hr, current, used, hused, rfl⟩
  · rfl
  · have hlook : ∀ r₁ : Reader, r₁.used = r.used →
        r₁.outward = ({ r₁ with current := current, used := used } : Reader).outward := by
      intro r₁ h₁
      rw [outward_of_le (h₁ ▸ hr), outward_of_le hused]
    simp only [readRun]
    generalize (if count = 0 then [] else r.lookahead.toList) = first
    generalize Source.takeUpTo (count - first.length) r.source.events = served
    by_cases hlength : (first ++ served.1).length = count
    · rw [if_pos hlength, if_pos hlength]
      exact congrArg (EStateM.Result.ok _) (hlook _ rfl)
    · rw [if_neg hlength, if_neg hlength]
      cases r.source.failure with
      | none => exact congrArg (EStateM.Result.error (Error.bytesMissing count _)) (hlook _ rfl)
      | some message => exact congrArg (EStateM.Result.error (Error.device message)) (hlook _ rfl)

theorem outward_readBytes (count : Nat) (order : BitOrder) : Outward (readBytes count order) := by
  refine Outward.get_bind (fun r => ?_) fun r hr current used hused => ?_
  · split
    · exact outward_readEach order count
    · exact outward_readRun count order
  · rw [if_neg (Nat.not_lt.mpr hr), if_neg (Nat.not_lt.mpr hused)]

theorem outward_readText (order : BitOrder) : Outward (readText order) := by
  refine (outward_readByte order).bind fun leading => ?_
  split
  · exact Outward.pure _
  · have hlength : Outward (readTextLength leading order) := by
      unfold readTextLength
      split
      · exact Outward.pure _
      · split
        · refine (outward_readEach order _).bind fun found => ?_
          dsimp only
          split
          · exact Outward.throw _
          · exact Outward.pure _
        · exact Outward.throw _
    refine hlength.bind fun length => (outward_readBytes length order).bind fun found => ?_
    split
    · exact Outward.pure _
    · exact Outward.throw _

theorem outward_skipBytes (count : Nat) : Outward (skipBytes count) := by
  induction count with
  | zero => exact Outward.pure _
  | succ count ih => exact (outward_readByte .lsb0).bind fun _ => ih

theorem outward_align (n : Nat) : Outward (align n) := by
  refine Outward.bind (Outward.modify fun r r' h => ?_) fun _ =>
    Outward.get_bind (fun r => outward_skipBytes _) fun _ _ _ _ _ => rfl
  rcases eq_or_of_outward_eq h with rfl | ⟨hr, current, used, hused, rfl⟩
  · rfl
  · simp only [buffered, Nat.sub_eq_zero_of_le hr, Nat.sub_eq_zero_of_le hused]
    rfl

theorem outward_reset : Outward reset := by
  refine Outward.modify fun r r' h => ?_
  rcases eq_or_of_outward_eq h with rfl | ⟨hr, current, used, hused, rfl⟩ <;> rfl

theorem outward_isExhausted : Outward isExhausted := by
  refine Outward.get_bind (fun r => ?_) fun r hr current used hused => ?_
  · split
    · exact Outward.pure _
    · exact outward_hasByte.bind fun _ => Outward.pure _
  · rw [if_neg (Nat.not_lt.mpr hr), if_neg (Nat.not_lt.mpr hused)]

theorem outward_atEndFor (width : Nat) (order : BitOrder) : Outward (atEndFor width order) := by
  refine outward_hasByte.bind fun more => ?_
  split
  · exact Outward.pure _
  · refine Outward.get_bind (fun r => ?_) fun r hr current used hused => ?_
    · split
      · exact Outward.pure _
      · split
        · exact Outward.throw _
        · exact Outward.pure _
    · simp only [buffered, Nat.sub_eq_zero_of_le hr, Nat.sub_eq_zero_of_le hused, Nat.lt_irrefl,
        false_and, if_false]

/-- What a reader looks like from outside is all that an operation depends on. -/
theorem outward_read (op : StreamOp) : Outward op.read := by
  cases op with
  | bits value width order => exact (outward_readBits width order).map _
  | byte b order => exact (outward_readByte order).map _
  | bytes bs order => exact (outward_readBytes bs.length order).map _
  | number n size endian order =>
    exact Outward.map _ ((outward_readEach order size).bind fun _ => Outward.pure _)
  | text t order => exact (outward_readText order).map _
  | align n => exact (outward_align n).map _
  | skip count => exact (outward_skipBytes count).map _
  | reset => exact outward_reset.map _

/-! ## A byte and its bits -/

/-- The bits of a byte that was just pulled. -/
theorem takeBits_of_pull {b : UInt8} {r₁ : Reader} (hused : ¬ r.used < 8)
    (hpull : pull r = .ok (some b) r₁) (width : Nat) :
    takeBits order width 8 r =
      .ok (Bits.ofNat (order.logical b).toNat 8) { r₁ with
        current := b, used := 8, byteCount := r₁.byteCount + 1, fetched := r₁.fetched + 1 } := by
  let fetched : Reader := { r₁ with
    current := b, used := 0, byteCount := r₁.byteCount + 1, fetched := r₁.fetched + 1 }
  have hnext : nextBit order r = nextBit order fetched := by
    simp only [nextBit, bind_of_ok (get_apply _), if_neg hused]
    rw [bind_of_ok hpull]
    rfl
  have hwhole : fetched.used + 8 ≤ 8 := Nat.le_refl 8
  calc takeBits order width 8 r = takeBits order width 8 fetched := by
        rw [takeBits]
        simp only [bind, EStateM.bind, hnext]
    _ = _ := by
        rw [show 8 = 8 + 0 from rfl, takeBits_within hwhole]
        simp only [takeBits, pure_apply, List.append_nil]
        rw [Nat.pow_zero, Nat.div_one]

/-- A byte is eight bits, wherever it begins. -/
theorem readByte_eq_readBits (order : BitOrder) (r : Reader) :
    onState outward (readByte order r) =
      onState outward ((UInt64.toUInt8 <$> readBits 8 order) r) := by
  simp only [readByte, bind_of_ok (get_apply r)]
  by_cases hused : r.used < 8
  · rw [if_pos hused, bind_pure_comp]
  · rw [if_neg hused]
    have hbits : readBits 8 order r = (do
        let bits ← takeBits order 8 8
        modify fun r => { r with bitCount := r.bitCount + 8 }
        Pure.pure (.ofNat (Bits.toNat bits)) : ReadM UInt64) r := rfl
    cases hpull : pull r with
    | error e r₁ =>
      have hnext : nextBit order r = .error e r₁ := by
        simp only [nextBit, bind_of_ok (get_apply r), if_neg hused]
        rw [bind_of_error hpull]
      have htake : takeBits order 8 8 r = .error e r₁ := bind_of_error hnext
      rw [bind_of_error hpull, map_of_error (hbits.trans (bind_of_error htake))]
    | ok next r₁ =>
      rw [bind_of_ok hpull]
      cases next with
      | none =>
        have hnext : nextBit order r = .ok none r₁ := by
          simp only [nextBit, bind_of_ok (get_apply r), if_neg hused]
          rw [bind_of_ok hpull]
          rfl
        have htake : takeBits order 8 8 r = .error (.bitsMissing 8 0) r₁ := bind_of_ok hnext
        rw [map_of_error (hbits.trans (bind_of_error htake))]
        rfl
      | some b =>
        rw [map_of_ok (hbits.trans (bind_of_ok (takeBits_of_pull hused hpull 8)))]
        have hbyte : (UInt64.ofNat (Bits.toNat (Bits.ofNat (order.logical b).toNat 8))).toUInt8 =
            order.logical b := by
          have hlt := (order.logical b).toNat_lt
          apply UInt8.toNat_inj.mp
          rw [Bits.toNat_ofNat, UInt64.toNat_toUInt8, UInt64.toNat_ofNat']
          omega
        have hfull : ¬ r₁.used < 8 := by rwa [used_of_pull hpull]
        rw [hbyte]
        refine congrArg (EStateM.Result.ok (order.logical b)) ?_
        rw [outward_of_le (by exact Nat.not_lt.mp hfull), outward_of_le (by exact Nat.le_refl 8)]

/-! ## A run and its bytes -/

/-- The reader after a byte that it took whole. -/
def counted (r : Reader) : Reader :=
  { r with byteCount := r.byteCount + 1, fetched := r.fetched + 1, bitCount := r.bitCount + 8 }

/-- A byte that is fetched whole is turned into its order and counted. -/
theorem readByte_of_pull (order : BitOrder) {b : UInt8} {r₁ : Reader} (hused : ¬ r.used < 8)
    (hpull : pull r = .ok (some b) r₁) :
    readByte order r = .ok (order.logical b) r₁.counted := by
  simp only [readByte, bind_of_ok (get_apply r), if_neg hused]
  rw [bind_of_ok hpull]
  rfl

/-- The reader after a run of bytes, with these events behind it. -/
def countedRun (r : Reader) (found : List UInt8) (events : List Source.Event) : Reader :=
  { r with
    source := ⟨events, none⟩, lookahead := none, byteCount := r.byteCount + found.length,
    fetched := r.fetched + found.length, bitCount := r.bitCount + 8 * found.length }

theorem countedRun_cons (b : UInt8) (found : List UInt8) (events : List Source.Event) :
    r.countedRun (b :: found) events = r.counted.countedRun found events := by
  simp only [countedRun, counted, List.length_cons, Reader.mk.injEq]
  refine ⟨trivial, trivial, trivial, trivial, ?_, ?_, ?_⟩ <;> omega

/-- What a run makes of the bytes that it finds. -/
def runResult (order : BitOrder) (count : Nat) (found : List UInt8) (r : Reader) :
    EStateM.Result Error Reader (List UInt8) :=
  if found.length = count then .ok (found.map order.logical) r
  else .error (.bytesMissing count found.length) r

/-- A run takes the bytes of the source up to the number it wants, or all there are. -/
theorem readRun_of_lookahead (order : BitOrder) (count : Nat) (hlookahead : r.lookahead = none)
    (hends : r.source.failure = none) {found : List UInt8} {events : List Source.Event}
    (htake : Source.takeUpTo count r.source.events = (found, events)) :
    readRun count order r = runResult order count found (r.countedRun found events) := by
  simp only [readRun, hlookahead, Option.toList_none, ite_self, List.length_nil, Nat.sub_zero,
    htake, List.nil_append, hends]
  rfl

/-- A run begins with the byte that would be pulled. -/
theorem readRun_of_pull (order : BitOrder) (count : Nat) {b : UInt8} {r₁ : Reader}
    (hends : r.source.failure = none) (hpull : pull r = .ok (some b) r₁) :
    r₁.source.failure = none ∧ ∃ found events,
      readRun count order r₁.counted =
        runResult order count found (r₁.counted.countedRun found events) ∧
      readRun (count + 1) order r =
        runResult order (count + 1) (b :: found) (r₁.counted.countedRun found events) := by
  simp only [pull] at hpull
  cases hlookahead : r.lookahead with
  | some c =>
    rw [hlookahead] at hpull
    cases hpull
    refine ⟨hends, _, _, readRun_of_lookahead (r := counted { r with lookahead := none }) order
      count rfl hends rfl, ?_⟩
    rw [← countedRun_cons]
    simp only [readRun, Nat.succ_ne_zero, if_false, hlookahead, Option.toList_some,
      List.length_singleton, Nat.add_sub_cancel, hends]
    rfl
  | none =>
    rw [hlookahead] at hpull
    dsimp only at hpull
    cases hnext : r.source.next with
    | ended =>
      rw [hnext] at hpull
      cases hpull
    | failed message =>
      rw [hnext] at hpull
      cases hpull
    | byte c rest =>
      rw [hnext] at hpull
      cases hpull
      obtain ⟨htake, hfailure⟩ := Source.takeUpTo_of_byte hnext count
      refine ⟨hfailure.trans hends, _, _,
        readRun_of_lookahead (r := counted { r with source := rest, lookahead := none }) order
          count rfl (hfailure.trans hends) rfl, ?_⟩
      rw [readRun_of_lookahead order (count + 1) hlookahead hends htake, ← countedRun_cons]
      rfl

/-- Where nothing can be pulled, a run finds nothing. -/
theorem readRun_of_ended (order : BitOrder) (count : Nat) {r₁ : Reader}
    (hends : r.source.failure = none) (hpull : pull r = .ok none r₁) :
    readRun (count + 1) order r = .error (.bytesMissing (count + 1) 0) r₁ := by
  simp only [pull] at hpull
  cases hlookahead : r.lookahead with
  | some c =>
    rw [hlookahead] at hpull
    cases hpull
  | none =>
    rw [hlookahead] at hpull
    dsimp only at hpull
    cases hnext : r.source.next with
    | byte c rest =>
      rw [hnext] at hpull
      cases hpull
    | failed message =>
      rw [hnext] at hpull
      cases hpull
    | ended =>
      rw [hnext] at hpull
      cases hpull
      rw [readRun_of_lookahead order (count + 1) hlookahead hends
        (Source.takeUpTo_of_ended hnext count), runResult, List.length_nil,
        if_neg (Nat.succ_ne_zero count).symm]
      simp only [countedRun, hends]
      rfl

/-- Both operations give the same, or both fail for the same kind of reason, and the readers that
they leave look the same. -/
def EndsAlike : EStateM.Result Error Reader α → EStateM.Result Error Reader α → Prop
  | .ok x t, .ok y u => x = y ∧ t.outward = u.outward
  | .error e t, .error e' u => e.kind = e'.kind ∧ t.outward = u.outward
  | _, _ => False

theorem readRun_zero (order : BitOrder) (r : Reader) : readRun 0 order r = .ok [] r := by
  have htake : Source.takeUpTo 0 r.source.events = ([], r.source.events) := by
    cases r.source.events <;> rfl
  simp only [readRun, if_true, List.length_nil, Nat.sub_zero, htake]
  rfl

/-- A run is its bytes read one by one. Where the stream ends, both have taken all there is. -/
theorem readRun_readEach (order : BitOrder) (count : Nat) (hused : ¬ r.used < 8)
    (hends : r.source.failure = none) :
    EndsAlike (readRun count order r) (readEach order count r) := by
  induction count generalizing r with
  | zero =>
    rw [readRun_zero]
    exact ⟨rfl, rfl⟩
  | succ count ih =>
    cases hbytes : r.unfetched with
    | nil =>
      obtain ⟨source, -, -, hpull⟩ := pull_of_spent hbytes
      rw [hends] at hpull
      have hbyte : readByte order r = .error (.bitsMissing 8 0) (r.withBytes source none) := by
        simp only [readByte, bind_of_ok (get_apply r), if_neg hused]
        rw [bind_of_ok hpull]
        rfl
      rw [readRun_of_ended order count hends hpull, readEach, bind_of_error hbyte]
      exact ⟨rfl, rfl⟩
    | cons b bs =>
      obtain ⟨source, hpull, -, -⟩ := pull_of_cons hbytes
      -- The byte that is pulled is the first of the run and the one that the single read returns.
      generalize hr₁ : ({ r with lookahead := none, source := source } : Reader) = r₁ at hpull
      have hfull : ¬ r₁.counted.used < 8 := by rwa [← hr₁]
      obtain ⟨hends₁, found, events, hrest, hrun⟩ := readRun_of_pull order count hends hpull
      have hothers := ih hfull hends₁
      rw [hrest] at hothers
      rw [hrun, readEach, bind_of_ok (readByte_of_pull order hused hpull)]
      unfold runResult at hothers ⊢
      cases heach : readEach order count r₁.counted with
      | ok more t =>
        rw [heach] at hothers
        rw [bind_of_ok heach]
        split at hothers
        · rename_i hlength
          obtain ⟨rfl, hlook⟩ := hothers
          rw [if_pos (show (b :: found).length = count + 1 from congrArg Nat.succ hlength)]
          exact ⟨rfl, hlook⟩
        · exact hothers.elim
      | error e t =>
        rw [heach] at hothers
        rw [bind_of_error heach]
        split at hothers
        · exact hothers.elim
        · rename_i hlength
          rw [if_neg (show ¬ (b :: found).length = count + 1 from
            fun h => hlength (Nat.succ.inj h))]
          exact hothers

/-! ## Runs of eight bits -/

/-- Bytes read eight bits at a time. -/
def readOctets (order : BitOrder) : (count : Nat) → ReadM (List UInt8)
  | 0 => pure []
  | count + 1 => do
    let n ← readBits 8 order
    let more ← readOctets order count
    pure (n.toUInt8 :: more)

theorem alike_readByte (order : BitOrder) :
    Alike (readByte order) (UInt64.toUInt8 <$> readBits 8 order) :=
  fun r r' h => (outward_readByte order r r' h).trans (readByte_eq_readBits order r')

/-- Bytes one by one are as many times eight bits. -/
theorem alike_readEach (order : BitOrder) (count : Nat) :
    Alike (readEach order count) (readOctets order count) := by
  induction count with
  | zero => exact Outward.pure []
  | succ count ih =>
    have hoctets : readOctets order (count + 1) = (UInt64.toUInt8 <$> readBits 8 order) >>= fun b =>
        readOctets order count >>= fun more => Pure.pure (b :: more) := by
      rw [readOctets, bind_map_left]
    rw [hoctets, readEach]
    exact (alike_readByte order).bind fun b => ih.bind fun more => Outward.pure (b :: more)

/-- A third result that looks the same as the second ends like the first. -/
theorem EndsAlike.trans_eq {a b c : EStateM.Result Error Reader α} (h : EndsAlike a b)
    (hbc : onState outward b = onState outward c) : EndsAlike a c := by
  cases b with
  | ok y u =>
    cases c with
    | error e v => cases hbc
    | ok z v =>
      obtain ⟨rfl, hlook⟩ := EStateM.Result.ok.inj hbc
      cases a with
      | ok x t => exact ⟨h.1, h.2.trans hlook⟩
      | error e t => exact h.elim
  | error e u =>
    cases c with
    | ok z v => cases hbc
    | error e' v =>
      obtain ⟨rfl, hlook⟩ := EStateM.Result.error.inj hbc
      cases a with
      | ok x t => exact h.elim
      | error e' t => exact ⟨h.1, h.2.trans hlook⟩

theorem EndsAlike.refl (a : EStateM.Result Error Reader α) : EndsAlike a a := by
  cases a <;> exact ⟨rfl, rfl⟩

/-- Bytes in a row are the bytes one by one, in one request or not. -/
theorem readBytes_readEach (order : BitOrder) (count : Nat) (hends : r.source.failure = none) :
    EndsAlike (readBytes count order r) (readEach order count r) := by
  simp only [readBytes, bind_of_ok (get_apply r)]
  by_cases hused : r.used < 8
  · rw [if_pos hused]
    exact EndsAlike.refl _
  · rw [if_neg hused]
    exact readRun_readEach order count hused hends

end Reader

/-! ## Writing -/

namespace Writer

variable {w : Writer} {order : BitOrder}

/-- Writers in use: what an operation leaves, a failure included, of a writer in use. -/
inductive InUse : Writer → Prop
  | start (sink : Sink) : InUse (ofSink sink)
  | after {w : Writer} (h : InUse w) (op : StreamOp) : InUse (stateOf (op.write w))
  | flushed {w : Writer} (h : InUse w) : InUse (stateOf (flushBits w))

/-- Fewer than eight bits are filled, and a byte of which none is filled is zero. -/
def Clean (w : Writer) : Prop := w.used < 8 ∧ (w.used = 0 → w.current = 0)

theorem retains_clean_emit (b : UInt8) : Retains Clean (emit b) := by
  intro w hw
  unfold emit
  cases w.sink.put b <;> exact hw

theorem retains_clean_flushBits : Retains Clean flushBits := by
  intro w hw
  simp only [flushBits, bind_of_ok (get_apply w)]
  by_cases hused : 0 < w.used
  · rw [if_pos hused, bind_of_ok (set_apply w _)]
    exact retains_clean_emit _ _ ⟨Nat.zero_lt_succ 7, fun _ => rfl⟩
  · rw [if_neg hused]
    exact hw

/-- Bits fill the byte from the bottom, and a byte that is full makes room for an empty one. -/
theorem retains_clean_putBits (order : BitOrder) (bits : List Bool) :
    Retains Clean (putBits order bits) := by
  induction bits with
  | nil => exact Retains.pure _
  | cons b bits ih =>
    have hput : Retains Clean (putBit order b) := by
      intro w hw
      simp only [putBit, bind_of_ok (get_apply w)]
      split
      · exact ⟨by dsimp only [set_apply, stateOf]; omega, fun h => absurd h (Nat.succ_ne_zero _)⟩
      · rw [bind_of_ok (set_apply w _)]
        exact retains_clean_emit _ _ ⟨Nat.zero_lt_succ 7, fun _ => rfl⟩
    exact hput.bind fun _ => ih

theorem retains_clean_writeBits (value : UInt64) (width : Nat) (order : BitOrder) :
    Retains Clean (writeBits value width order) := by
  unfold writeBits
  split
  · exact Retains.throw _
  · exact (retains_clean_putBits order _).bind fun _ => Retains.modify fun _ h => h

theorem retains_clean_writeByte (b : UInt8) (order : BitOrder) :
    Retains Clean (writeByte b order) := by
  refine Retains.get_bind fun w hw => ?_
  split
  · refine (retains_clean_emit _).bind (fun _ => ?_) w hw
    exact Retains.modify fun _ h => h
  · exact retains_clean_writeBits _ _ _ w hw

theorem retains_clean_writeBytes (bs : List UInt8) (order : BitOrder) :
    Retains Clean (writeBytes bs order) := by
  induction bs with
  | nil => exact Retains.pure _
  | cons b bs ih => exact (retains_clean_writeByte b order).bind fun _ => ih

theorem retains_clean_skipBytes (count : Nat) : Retains Clean (skipBytes count) := by
  induction count with
  | zero => exact Retains.pure _
  | succ count ih => exact (retains_clean_writeByte 0 .lsb0).bind fun _ => ih

theorem retains_clean_leaveByte : Retains Clean leaveByte := by
  refine Retains.get_bind fun w hw => ?_
  split
  · rw [bind_of_ok (set_apply w _)]
    exact retains_clean_flushBits _ hw
  · exact hw

/-- Every operation of a writer leaves the byte being filled in order. -/
theorem retains_clean_write (op : StreamOp) : Retains Clean op.write := by
  cases op with
  | bits value width order => exact retains_clean_writeBits value width order
  | byte b order => exact retains_clean_writeByte b order
  | bytes bs order => exact retains_clean_writeBytes bs order
  | number n size endian order => exact retains_clean_writeBytes _ order
  | text t order =>
    cases t with
    | none => exact retains_clean_writeByte _ order
    | some t =>
      simp only [StreamOp.write, writeText]
      split
      · exact Retains.throw _
      · exact (retains_clean_writeBytes _ order).bind fun _ => retains_clean_writeBytes _ order
  | align n =>
    exact retains_clean_leaveByte.bind fun _ =>
      Retains.get_bind fun w hw => retains_clean_skipBytes _ w hw
  | skip count => exact retains_clean_skipBytes count
  | reset => exact retains_clean_flushBits.bind fun _ => Retains.modify fun _ h => h

/-- Whatever has been written, the byte being filled is in order. -/
theorem InUse.clean (h : InUse w) : w.Clean := by
  induction h with
  | start sink => exact ⟨Nat.zero_lt_succ 7, fun _ => rfl⟩
  | after h op ih => exact retains_clean_write op _ ih
  | flushed h ih => exact retains_clean_flushBits _ ih

/-- A byte is eight bits, wherever it begins and whatever the sink makes of it. -/
theorem writeByte_eq_writeBits (hw : w.Clean) (b : UInt8) (order : BitOrder) :
    writeByte b order w = writeBits b.toUInt64 8 order w := by
  simp only [writeByte, bind_of_ok (get_apply w)]
  by_cases hused : w.used = 0
  · have hcurrent := hw.2 hused
    have hstate : ({ w with current := 0, used := 0 } : Writer) = w := by
      rw [← hcurrent, ← hused]
    have hbyte : w.fill order (.ofNat (b.toUInt64.toNat % 2 ^ 8)) = order.logical b := by
      have hb : UInt8.ofNat (b.toUInt64.toNat % 2 ^ 8) = b := by
        rw [UInt8.toNat_toUInt64, Nat.mod_eq_of_lt b.toNat_lt, UInt8.ofNat_toNat]
      rw [hb, fill, hcurrent, hused]
      simp
    have hput : putBits order (Bits.ofNat b.toUInt64.toNat 8) w = emit (order.logical b) w := by
      rw [putBits_full (by omega) (by omega), hbyte, hstate]
    rw [if_pos hused]
    unfold writeBits
    rw [if_neg (by omega)]
    simp only [bind, EStateM.bind, hput]
  · rw [if_neg hused]

/-- Bytes written eight bits at a time. -/
def writeOctets (order : BitOrder) : List UInt8 → WriteM Unit
  | [] => pure ()
  | b :: bs => do
    writeBits b.toUInt64 8 order
    writeOctets order bs

/-- Bytes in a row are written as so many times eight bits. -/
theorem writeBytes_eq_writeOctets (hw : w.Clean) (bs : List UInt8) (order : BitOrder) :
    writeBytes bs order w = writeOctets order bs w := by
  induction bs generalizing w with
  | nil => rfl
  | cons b bs ih =>
    have hbyte := writeByte_eq_writeBits hw b order
    have hkeep := retains_clean_writeByte b order w hw
    rw [writeBytes, writeOctets]
    cases hrun : writeByte b order w with
    | ok _ w' =>
      rw [hrun] at hkeep
      rw [bind_of_ok hrun, bind_of_ok (hbyte.symm.trans hrun)]
      exact ih hkeep
    | error e w' => rw [bind_of_error hrun, bind_of_error (hbyte.symm.trans hrun)]

end Writer

open Reader Writer in
/-- Whole bytes are eight bits each. A byte is read as eight bits are, its error included; bytes in
a row are read where so many times eight bits are, and they are the same; where the stream ends, all
have taken what there was. A writer in use gives the same bytes to its sink, and stops at the one
that it refuses. -/
theorem wholeBytes_agree (order : BitOrder) :
    (∀ r, onState outward (readByte order r) =
      onState outward ((UInt64.toUInt8 <$> readBits 8 order) r)) ∧
    (∀ r : Reader, r.source.failure = none → ∀ count,
      EndsAlike (readBytes count order r) (readOctets order count r) ∧
      EndsAlike (readBytes count order r) (readEach order count r)) ∧
    (∀ w, InUse w →
      (∀ b, writeByte b order w = writeBits b.toUInt64 8 order w) ∧
      (∀ bs, writeBytes bs order w = writeOctets order bs w)) := by
  refine ⟨readByte_eq_readBits order, fun r hends count => ?_, fun w hw => ⟨fun b => ?_, fun bs => ?_⟩⟩
  · have heach := readBytes_readEach order count hends
    exact ⟨heach.trans_eq (alike_readEach order count r r rfl), heach⟩
  · exact writeByte_eq_writeBits hw.clean b order
  · exact writeBytes_eq_writeOctets hw.clean bs order

open Reader Writer in
/-- Three bits into a byte of two, and three bits into a byte of a sink that takes one. -/
theorem wholeBytes_agree_split :
    (∀ count, EndsAlike
      (readBytes count .msb0 (stateOf (readBits 3 .msb0 (ofSource (.ofBytes [0xA5, 0x3C])))))
      (readOctets .msb0 count (stateOf (readBits 3 .msb0 (ofSource (.ofBytes [0xA5, 0x3C])))))) ∧
    (∀ bs, writeBytes bs .msb0 (stateOf (writeBits 5 3 .msb0 (ofSink ⟨#[], some (1, "full"), none⟩))) =
      writeOctets .msb0 bs (stateOf (writeBits 5 3 .msb0 (ofSink ⟨#[], some (1, "full"), none⟩)))) :=
  ⟨fun count => ((wholeBytes_agree .msb0).2.1 _ (by decide) count).1,
    ((wholeBytes_agree .msb0).2.2 _ (.after (.start _) (.bits 5 3 .msb0))).2⟩

end RecordLayout
