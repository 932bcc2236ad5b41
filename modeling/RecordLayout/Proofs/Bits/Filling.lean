import RecordLayout.Proofs.Bits.Writing
import RecordLayout.Proofs.Checked.Fault

/-!
# Sinks that fill up

A writer gives its sink one byte at a time and stops at the first one that is refused. So a sink that
takes only so many bytes makes no difference to an operation that gives it no more; and where the
operation would give it more, it has taken the first of them when the operation fails.
-/

namespace RecordLayout

/-- A state with a sink in it. -/
class HasSink (σ : Type) where
  sink : σ → Sink
  /-- The state with another sink. -/
  withSink : σ → Sink → σ

namespace HasSink

variable {σ α β : Type} [HasSink σ]

/-- The bytes that the sink has received. -/
def received (s : σ) : List UInt8 := (sink s).received.toList

/-- The sink takes everything. -/
def Unlimited (s : σ) : Prop := (sink s).limit = none

/-- The state with a sink that takes only so many bytes. -/
def limited (n : Nat) (message : String) (s : σ) : σ :=
  withSink s { sink s with limit := some (n, message) }

end HasSink

open HasSink

variable {σ α β : Type} [HasSink σ]

/-- A limit of the sink does to a run what the second result shows: nothing, if the bytes fit, and
otherwise it fails when the sink has taken the first of them. -/
def CutsOff (n : Nat) (message : String) (r r' : EStateM.Result Error σ α) : Prop :=
  ((received (stateOf r)).length ≤ n ∧ r' = onState (limited n message) r) ∨
  (n < (received (stateOf r)).length ∧
    ∃ u, r' = .error (.device message) u ∧ received u = (received (stateOf r)).take n)

/-- From one state, the operation only adds to what the sink has received, and a limit cuts it off. -/
structure FillsAt (m : EStateM Error σ α) (s : σ) : Prop where
  unlimited : Unlimited (stateOf (m s))
  grows : received s <+: received (stateOf (m s))
  cutsOff : ∀ n message, (received s).length ≤ n →
    CutsOff n message (m s) (m (limited n message s))

/-- From every state whose sink takes everything, the operation only adds to what the sink has
received, and a limit cuts it off. -/
def Fills (m : EStateM Error σ α) : Prop := ∀ s, Unlimited s → FillsAt m s

/-! ## Operations in a row -/

namespace FillsAt

variable {m : EStateM Error σ α} {s : σ}

/-- An operation that leaves the sink alone. -/
theorem of_keeps (hs : Unlimited s) (hsink : sink (stateOf (m s)) = sink s)
    (hlimited : ∀ n message, m (limited n message s) = onState (limited n message) (m s)) :
    FillsAt m s := by
  have hreceived : received (stateOf (m s)) = received s := by rw [received, hsink, received]
  refine ⟨?_, ?_, fun n message hle => .inl ⟨?_, hlimited n message⟩⟩
  · rwa [Unlimited, hsink]
  · rw [hreceived]
  · rwa [hreceived]

/-- An operation that does what another does from a state with the same sink. -/
theorem of_eq {m' : EStateM Error σ α} {t : σ} (h : FillsAt m' t) (hsink : sink t = sink s)
    (hrun : m s = m' t) (hlimited : ∀ n message, m (limited n message s) = m' (limited n message t)) :
    FillsAt m s := by
  have hreceived : received t = received s := by rw [received, hsink, received]
  refine ⟨?_, ?_, fun n message hle => ?_⟩
  · rw [hrun]
    exact h.unlimited
  · rw [hrun, ← hreceived]
    exact h.grows
  · rw [hrun, hlimited]
    rw [← hreceived] at hle
    exact h.cutsOff n message hle

/-- What follows is compared from the state that the first operation leaves. -/
theorem bind {g : α → EStateM Error σ β} (hm : FillsAt m s)
    (hg : ∀ a t, m s = .ok a t → FillsAt (g a) t) : FillsAt (m >>= g) s := by
  cases hrun : m s with
  | error e t =>
    have hbind : (m >>= g) s = .error e t := bind_of_error hrun
    obtain ⟨hunlimited, hgrows, hcuts⟩ := hm
    rw [hrun] at hunlimited hgrows hcuts
    refine ⟨by rwa [hbind], by rwa [hbind], fun n message hle => ?_⟩
    rw [hbind]
    rcases hcuts n message hle with ⟨hfits, hlimited⟩ | ⟨hover, u, hlimited, hu⟩
    · exact .inl ⟨hfits, bind_of_error hlimited⟩
    · exact .inr ⟨hover, u, bind_of_error hlimited, hu⟩
  | ok a t =>
    have hbind : (m >>= g) s = g a t := bind_of_ok hrun
    have hrest := hg a t hrun
    have hgrows := hm.grows
    have hcuts := hm.cutsOff
    rw [hrun] at hgrows hcuts
    refine ⟨by rw [hbind]; exact hrest.unlimited, by rw [hbind]; exact hgrows.trans hrest.grows,
      fun n message hle => ?_⟩
    rw [hbind]
    rcases hcuts n message hle with ⟨hfits, hlimited⟩ | ⟨hover, u, hlimited, hu⟩
    · rw [bind_of_ok hlimited]
      exact hrest.cutsOff n message hfits
    · obtain ⟨more, hmore⟩ := hrest.grows
      refine .inr ⟨hover.trans_le hrest.grows.length_le, u, bind_of_error hlimited, ?_⟩
      rw [hu, ← hmore]
      exact (List.take_append_of_le_length hover.le).symm

end FillsAt

namespace Fills

variable {m : EStateM Error σ α}

theorem pure (a : α) : Fills (Pure.pure a : EStateM Error σ α) :=
  fun _ hs => .of_keeps hs rfl fun _ _ => rfl

theorem throw (e : Error) : Fills (MonadExcept.throw e : EStateM Error σ α) :=
  fun _ hs => .of_keeps hs rfl fun _ _ => rfl

/-- What follows matters only for the results that the first operation can give. -/
theorem bind_of_ok {g : α → EStateM Error σ β} (hm : Fills m)
    (hg : ∀ a s t, m s = .ok a t → Fills (g a)) : Fills (m >>= g) := by
  intro s hs
  refine (hm s hs).bind fun a t hrun => hg a s t hrun t ?_
  have hunlimited := (hm s hs).unlimited
  rwa [hrun] at hunlimited

theorem bind {g : α → EStateM Error σ β} (hm : Fills m) (hg : ∀ a, Fills (g a)) :
    Fills (m >>= g) :=
  hm.bind_of_ok fun a _ _ _ => hg a

/-- An operation that leaves the sink alone does the same with a sink of any size. -/
theorem modify {u : σ → σ} (hsink : ∀ s, sink (u s) = sink s)
    (hlimited : ∀ n message s, u (limited n message s) = limited n message (u s)) :
    Fills (modify u : EStateM Error σ PUnit) :=
  fun s hs => .of_keeps hs (hsink s) fun n message =>
    congrArg (EStateM.Result.ok PUnit.unit) (hlimited n message s)

/-- An operation that looks at the state, but not at the limit of the sink. -/
theorem get_bind {g : σ → EStateM Error σ α} (hsame : ∀ n message s, g (limited n message s) = g s)
    (hg : ∀ s, Fills (g s)) : Fills (get >>= g) := by
  intro s hs
  refine (hg s s hs).of_eq rfl rfl fun n message => ?_
  exact congrFun (hsame n message s) (limited n message s)

end Fills

/-! ## The writer -/

instance : HasSink Writer where
  sink := Writer.sink
  withSink w k := { w with sink := k }

namespace Writer

/-- The first byte over the limit is refused. -/
theorem fills_emit (b : UInt8) : Fills (emit b) := by
  rintro ⟨⟨bytes, limit, flushFailure⟩, current, used, bitCount, byteCount⟩ hs
  obtain rfl : limit = none := hs
  refine ⟨rfl, ?_, fun n message hle => ?_⟩
  · exact ⟨[b], Array.toList_push.symm⟩
  · have hpush : (bytes.push b).toList = bytes.toList ++ [b] := Array.toList_push
    have hle : bytes.toList.length ≤ n := hle
    rw [Array.length_toList] at hle
    by_cases hroom : bytes.size < n
    · refine .inl ⟨?_, ?_⟩
      · have hlength : (bytes.push b).toList.length ≤ n := by
          rw [hpush, List.length_append, Array.length_toList, List.length_singleton]
          omega
        exact hlength
      · simp only [emit, Sink.put, limited, HasSink.sink, HasSink.withSink, hroom, if_true]
        rfl
    · refine .inr ⟨?_, limited n message ⟨⟨bytes, none, flushFailure⟩, current, used, bitCount,
        byteCount⟩, ?_, ?_⟩
      · have hlength : n < (bytes.push b).toList.length := by
          rw [hpush, List.length_append, Array.length_toList, List.length_singleton]
          omega
        exact hlength
      · simp only [emit, Sink.put, limited, HasSink.sink, HasSink.withSink, hroom, if_false]
      · have htake : bytes.toList = (bytes.push b).toList.take n := by
          rw [hpush, List.take_append_of_le_length (by rw [Array.length_toList]; omega),
            List.take_of_length_le (by rw [Array.length_toList]; omega)]
        exact htake

/-- The byte that was being filled is given away and another begun. -/
def close (b : UInt8) : WriteM Unit := do
  modify fun w => { w with current := 0, used := 0 }
  emit b

theorem fills_close (b : UInt8) : Fills (close b) := by
  refine Fills.bind (Fills.modify ?_ ?_) fun _ => fills_emit b
  · exact fun _ => rfl
  · exact fun _ _ _ => rfl

/-- A byte that is begun is the only one that flushing sends. -/
theorem flushBits_eq : flushBits =
    get >>= fun w => if 0 < w.used then close w.current else pure () := by
  funext w
  simp only [flushBits, bind_of_ok (get_apply w)]
  split <;> rfl

theorem fills_flushBits : Fills flushBits := by
  rw [flushBits_eq]
  refine Fills.get_bind (fun _ _ _ => rfl) fun w => ?_
  split
  · exact fills_close _
  · exact .pure _

theorem putBit_eq (order : BitOrder) (b : Bool) : putBit order b =
    get >>= fun w =>
      if w.used < 7 then
        modify fun w' => { w' with current := filled order b w, used := w.used + 1 }
      else close (filled order b w) := by
  funext w
  simp only [putBit, bind_of_ok (get_apply w)]
  split <;> rfl

/-- A bit sends nothing to the sink unless it completes a byte. -/
theorem fills_putBit (order : BitOrder) (b : Bool) : Fills (putBit order b) := by
  rw [putBit_eq]
  refine Fills.get_bind (fun _ _ _ => rfl) fun w => ?_
  split
  · exact Fills.modify (fun _ => rfl) fun _ _ _ => rfl
  · exact fills_close _

theorem fills_putBits (order : BitOrder) (bits : List Bool) : Fills (putBits order bits) := by
  induction bits with
  | nil => exact .pure _
  | cons b bits ih => exact (fills_putBit order b).bind fun _ => ih

/-- Bits go to the sink byte by byte, so the sink may refuse in the middle of a number. -/
theorem fills_writeBits (value : UInt64) (width : Nat) (order : BitOrder) :
    Fills (writeBits value width order) := by
  have hwrite : Fills (do
      putBits order (Bits.ofNat value.toNat width)
      modify fun w => { w with bitCount := w.bitCount + width } : WriteM PUnit) := by
    refine (fills_putBits _ _).bind fun _ => Fills.modify ?_ ?_
    · exact fun _ => rfl
    · exact fun _ _ _ => rfl
  unfold writeBits
  split
  · exact (Fills.throw _).bind fun _ => hwrite
  · exact hwrite

theorem fills_writeByte (b : UInt8) (order : BitOrder) : Fills (writeByte b order) := by
  refine Fills.get_bind (fun _ _ _ => rfl) fun w => ?_
  split
  · refine (fills_emit _).bind fun _ => Fills.modify ?_ ?_
    · exact fun _ => rfl
    · exact fun _ _ _ => rfl
  · exact fills_writeBits _ _ _

theorem fills_writeBytes (bs : List UInt8) (order : BitOrder) : Fills (writeBytes bs order) := by
  induction bs with
  | nil => exact .pure _
  | cons b bs ih => exact (fills_writeByte b order).bind fun _ => ih

/-- A text sends its length first and refuses before if it is too long. -/
theorem fills_writeText (text : Option String) (order : BitOrder) :
    Fills (writeText text order) := by
  cases text with
  | none => exact fills_writeByte _ _
  | some text =>
    have hwrite : Fills (do
        writeBytes (textLength (Text.Utf8.encode text).length) order
        writeBytes (Text.Utf8.encode text) order) :=
      (fills_writeBytes _ _).bind fun _ => fills_writeBytes _ _
    unfold writeText
    dsimp only
    split
    · exact (Fills.throw _).bind fun _ => hwrite
    · exact hwrite

theorem fills_skipBytes (count : Nat) : Fills (skipBytes count) := by
  induction count with
  | zero => exact .pure _
  | succ count ih => exact (fills_writeByte _ _).bind fun _ => ih

/-- Leaving a byte counts the bits that are missing and closes it. -/
theorem leaveByte_eq : leaveByte =
    get >>= fun w => if 0 < w.used then (do
        modify fun w' => { w' with bitCount := w'.bitCount + (8 - w.used) }
        flushBits)
      else pure () := by
  funext w
  simp only [leaveByte, bind_of_ok (get_apply w)]
  split <;> rfl

theorem fills_leaveByte : Fills leaveByte := by
  rw [leaveByte_eq]
  refine Fills.get_bind (fun _ _ _ => rfl) fun w => ?_
  split
  · refine Fills.bind (Fills.modify ?_ ?_) fun _ => fills_flushBits
    · exact fun _ => rfl
    · exact fun _ _ _ => rfl
  · exact .pure _

theorem fills_align (n : Nat) : Fills (align n) :=
  fills_leaveByte.bind fun _ =>
    Fills.get_bind (fun _ _ _ => rfl) fun _ => fills_skipBytes _

theorem fills_reset : Fills reset := by
  refine fills_flushBits.bind fun _ => Fills.modify ?_ ?_
  · exact fun _ => rfl
  · exact fun _ _ _ => rfl

/-- The end of the writer sends the last byte, and then asks the sink for its failure. -/
theorem fills_finish : Fills finish := by
  refine fills_flushBits.bind fun _ => Fills.get_bind (fun _ _ _ => rfl) fun w => ?_
  cases w.sink.flushFailure with
  | none => exact .pure _
  | some message => exact .throw _

end Writer

end RecordLayout
