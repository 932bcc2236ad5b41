import RecordLayout.Proofs.Bits.Skipping
import RecordLayout.Proofs.Simulation

/-!
# Streams that break off

A reader of a stream that breaks off, because it ends or because its source fails, does the same as
a reader of the whole stream, up to the place where the stream breaks off; there it has an error that
says so. It makes no difference which of the two has looked at its next byte already. Only a look at
whether there is another byte can tell the two apart without an error, and not even that if the
source fails or if nothing is missing.
-/

namespace RecordLayout

/-- The kind of the errors with which a stream breaks off. -/
def lossKind : (failure : Option String) → ErrorKind
  | none => .exhausted
  | some _ => .device

/-- An error with which a stream breaks off. -/
def BreaksOff (failure : Option String) (e : Error) : Prop := e.kind = lossKind failure

/-- The operation foretells its results on the whole stream, and no result means that the stream has
ended. -/
def ForetellsSome {σ α : Type} (failure : Option String) (R : σ → σ → Prop)
    (m : EStateM Error σ (Option α)) : Prop :=
  ∀ s s', R s s' → match m s with
    | .ok (some x) t => ∃ t', m s' = .ok (some x) t' ∧ R t t'
    | .ok none _ => failure = none
    | .error e _ => BreaksOff failure e

/-- An operation that needs a result of the one before it. -/
theorem ForetellsSome.bind {σ α β : Type} {failure : Option String}
    {R : σ → σ → Prop} {m : EStateM Error σ (Option α)} {g : Option α → EStateM Error σ β} {e : Error}
    (hm : ForetellsSome failure R m) (hg : ∀ a, Foretells (BreaksOff failure) R (g (some a)))
    (hnone : g none = MonadExcept.throw e) (he : e.kind = .exhausted) :
    Foretells (BreaksOff failure) R (m >>= g) := by
  intro s s' h
  have hfirst := hm s s' h
  cases hs : m s with
  | ok found t =>
    rw [hs] at hfirst
    cases found with
    | some a =>
      obtain ⟨t', hs', ht⟩ := hfirst
      rw [bind_of_ok hs, bind_of_ok hs']
      exact hg a t t' ht
    | none =>
      rw [bind_of_ok hs, hnone]
      exact .inl (by rw [BreaksOff, he, show failure = none from hfirst, lossKind])
  | error e t =>
    rw [hs] at hfirst
    rw [bind_of_error hs]
    exact .inl hfirst

/-- The first source serves what the second one does, less some bytes at the end. -/
structure Source.Cut (failure : Option String) (more : List UInt8) (s s' : Source) : Prop where
  bytes : s'.bytes = s.bytes ++ more
  failure : s.failure = failure
  ended : s'.failure = none

namespace Reader

/-- The first reader is the second one on a stream that breaks off. -/
structure Cut (failure : Option String) (more : List UInt8) (r r' : Reader) : Prop where
  unfetched : r'.unfetched = r.unfetched ++ more
  failure : r.source.failure = failure
  ended : r'.source.failure = none
  same : r' = r.withBytes r'.source r'.lookahead

variable {failure : Option String} {more : List UInt8} {r r' : Reader}

theorem cut_ofSource {s s' : Source} (h : s.Cut failure more s') :
    Cut failure more (ofSource s) (ofSource s') := ⟨h.bytes, h.failure, h.ended, rfl⟩

theorem Cut.used (h : Cut failure more r r') : r'.used = r.used := by rw [h.same, withBytes]

theorem Cut.current (h : Cut failure more r r') : r'.current = r.current := by
  rw [h.same, withBytes]

/-- Both have taken as many bytes, as those that follow are not counted. -/
theorem Cut.byteCount (h : Cut failure more r r') : r'.byteCount = r.byteCount := by
  rw [h.same, withBytes]

theorem Cut.fetched (h : Cut failure more r r') : r'.fetched = r.fetched := by
  rw [h.same, withBytes]

theorem Cut.buffered (h : Cut failure more r r') : r'.buffered = r.buffered := by
  rw [Reader.buffered, h.used, Reader.buffered]

/-- The whole stream has the missing bytes more to read. -/
theorem Cut.remaining (h : Cut failure more r r') :
    r'.remaining = r.remaining + 8 * more.length := by
  rw [remaining_eq, remaining_eq, h.unfetched, h.buffered, List.length_append]
  omega

/-- A change of a reader that leaves the bytes to come alone. -/
theorem Cut.update (h : Cut failure more r r') {u : Reader → Reader}
    (hu : ∀ r source lookahead,
      u (r.withBytes source lookahead) = (u r).withBytes source lookahead) :
    Cut failure more (u r) (u r') := by
  have hkept (r : Reader) : (u r).source = r.source ∧ (u r).lookahead = r.lookahead := by
    rw [show r = r.withBytes r.source r.lookahead from rfl, hu]
    exact ⟨rfl, rfl⟩
  obtain ⟨hsource, hlookahead⟩ := hkept r
  obtain ⟨hsource', hlookahead'⟩ := hkept r'
  refine ⟨?_, hsource ▸ h.failure, hsource' ▸ h.ended, ?_⟩
  · rw [Reader.unfetched, hsource', hlookahead', Reader.unfetched, hsource, hlookahead]
    exact h.unfetched
  · rw [hsource', hlookahead', ← hu, ← h.same]

/-- An operation that does not look at the source does the same on both. -/
theorem foretells_modify {u : Reader → Reader}
    (hu : ∀ r source lookahead,
      u (r.withBytes source lookahead) = (u r).withBytes source lookahead) :
    Foretells (BreaksOff failure) (Cut failure more) (modify u : ReadM PUnit) :=
  .modify fun _ _ h => h.update hu

/-- The reader of the beginning fetches the same byte, has an error of its kind, or has come to the
end. -/
theorem foretells_pull : ForetellsSome failure (Cut failure more) pull := by
  intro r r' h
  cases hbytes : r.unfetched with
  | nil =>
    obtain ⟨source, -, -, hpull⟩ := pull_of_spent hbytes
    rw [hpull, h.failure]
    cases failure with
    | none => rfl
    | some message => rfl
  | cons b bs =>
    obtain ⟨source, hpull, hsource, hfailure⟩ := pull_of_cons hbytes
    obtain ⟨source', hpull', hsource', hfailure'⟩ :=
      pull_of_cons (h.unfetched.trans (congrArg (· ++ more) hbytes))
    rw [hpull]
    refine ⟨_, hpull', ?_, hfailure.trans h.failure, hfailure'.trans h.ended, ?_⟩
    · simp only [Reader.unfetched, Option.toList_none, List.nil_append, hsource', hsource]
      rfl
    · rw [h.same]
      rfl

/-- A bit is taken from the byte at hand or from the next one. -/
theorem foretells_nextBit (order : BitOrder) :
    ForetellsSome failure (Cut failure more) (nextBit order) := by
  intro r r' h
  have hused := h.used
  simp only [nextBit, bind_of_ok (get_apply _), hused]
  by_cases hin : r.used < 8
  · simp only [hin, if_true, h.current]
    refine ⟨_, rfl, ?_⟩
    have hnext := h.update (u := fun r => { r with used := r.used + 1 }) fun _ _ _ => rfl
    rwa [hused, h.current] at hnext
  · simp only [hin, if_false]
    have hpull := foretells_pull r r' h
    cases hs : pull r with
    | ok found t =>
      rw [hs] at hpull
      cases found with
      | none =>
        rw [bind_of_ok hs]
        exact hpull
      | some b =>
        obtain ⟨t', hs', ht⟩ := hpull
        rw [bind_of_ok hs, bind_of_ok hs']
        exact ⟨_, rfl, ht.update (u := fun r =>
          { r with current := b, used := 1, byteCount := r.byteCount + 1, fetched := r.fetched + 1 })
          fun _ _ _ => rfl⟩
    | error e t =>
      rw [hs] at hpull
      rw [bind_of_error hs]
      exact hpull

/-- The stream may break off in front of any of the bits. -/
theorem foretells_takeBits (order : BitOrder) (width count : Nat) :
    Foretells (BreaksOff failure) (Cut failure more) (takeBits order width count) := by
  induction count with
  | zero => exact .pure _
  | succ count ih =>
    exact ForetellsSome.bind (foretells_nextBit order) (fun b => ih.bind fun _ => .pure _) rfl rfl

theorem foretells_readBits (width : Nat) (order : BitOrder) :
    Foretells (BreaksOff failure) (Cut failure more) (readBits width order) := by
  unfold readBits
  split
  · exact .throw _
  · refine (foretells_takeBits order width width).bind fun bits => ?_
    exact .bind (foretells_modify fun _ _ _ => rfl) fun _ => .pure _

theorem foretells_readByte (order : BitOrder) :
    Foretells (BreaksOff failure) (Cut failure more) (readByte order) := by
  refine .get_bind fun r r' h => ?_
  rw [h.used]
  by_cases hin : r.used < 8
  · simp only [hin, if_true]
    exact (foretells_readBits 8 order).bind (fun _ => .pure _) r r' h
  · simp only [hin, if_false]
    refine ForetellsSome.bind foretells_pull (fun b => ?_) rfl rfl r r' h
    exact .bind (foretells_modify fun _ _ _ => rfl) fun _ => .pure _

theorem foretells_readEach (order : BitOrder) (count : Nat) :
    Foretells (BreaksOff failure) (Cut failure more) (readEach order count) := by
  induction count with
  | zero => exact .pure _
  | succ count ih => exact (foretells_readByte order).bind fun _ => ih.bind fun _ => .pure _

/-- Bytes in a row end with the error of the source or with its end. -/
theorem breaksOff_of_readRun {count : Nat} {order : BitOrder} {e : Error} {t : Reader}
    (h : readRun count order r = .error e t) : BreaksOff r.source.failure e := by
  unfold readRun at h
  generalize (if count = 0 then [] else r.lookahead.toList) = first at h
  generalize (if count = 0 then r.lookahead else none) = left at h
  dsimp only at h
  split at h
  · cases h
  · cases hfailure : r.source.failure with
    | some message =>
      rw [hfailure] at h
      cases h
      rfl
    | none =>
      rw [hfailure] at h
      cases h
      rfl

/-- A run that is served in full is the same in front of more bytes. -/
theorem foretells_readRun (count : Nat) (order : BitOrder) :
    Foretells (BreaksOff failure) (Cut failure more) (readRun count order) := by
  intro r r' h
  cases hs : readRun count order r with
  | ok bs t =>
    obtain ⟨hle, rfl, rfl⟩ := readRun_eq_ok_iff.mp hs
    have hwhole : count ≤ r'.unfetched.length := by
      rw [h.unfetched, List.length_append]
      omega
    refine ⟨r'.pastRun count, readRun_eq_ok_iff.mpr ⟨hwhole, ?_, rfl⟩, ?_⟩
    · rw [h.unfetched, List.take_append_of_le_length hle]
    · refine ⟨?_, h.failure, h.ended, ?_⟩
      · rw [(run_eq r' count).2, (run_eq r count).2, h.unfetched,
          List.drop_append_of_le_length hle]
      · rw [h.same]
        rfl
  | error e t => exact .inl (h.failure ▸ breaksOff_of_readRun hs)

/-- Bytes are taken one by one or in a row, and in both cases the stream breaks off where it ends.
-/
theorem foretells_readBytes (count : Nat) (order : BitOrder) :
    Foretells (BreaksOff failure) (Cut failure more) (readBytes count order) := by
  refine .get_bind fun r r' h => ?_
  rw [h.used]
  by_cases hin : r.used < 8
  · simp only [hin, if_true]
    exact foretells_readEach order count r r' h
  · simp only [hin, if_false]
    exact foretells_readRun count order r r' h

theorem foretells_readNumber (size : Nat) (bytes : ByteOrder) (order : BitOrder) :
    Foretells (BreaksOff failure) (Cut failure more) (readNumber size bytes order) :=
  (foretells_readEach order size).bind fun _ => .pure _

theorem foretells_readTextLength (leading : UInt8) (order : BitOrder) :
    Foretells (BreaksOff failure) (Cut failure more) (readTextLength leading order) := by
  unfold readTextLength
  split
  · exact .pure _
  · split
    · generalize leading.toNat - 0x80 = count
      refine (foretells_readEach order count).bind fun found => ?_
      dsimp only
      split
      · exact .throw _
      · exact .pure _
    · exact .throw _

/-- A text breaks off in its length or in its bytes. -/
theorem foretells_readText (order : BitOrder) :
    Foretells (BreaksOff failure) (Cut failure more) (readText order) := by
  refine (foretells_readByte order).bind fun leading => ?_
  split
  · exact .pure _
  · refine (foretells_readTextLength leading order).bind fun length => ?_
    refine (foretells_readBytes length order).bind fun found => ?_
    split
    · exact .pure _
    · exact .throw _

theorem foretells_skipBytes (count : Nat) :
    Foretells (BreaksOff failure) (Cut failure more) (skipBytes count) := by
  induction count with
  | zero => exact .pure _
  | succ count ih => exact (foretells_readByte .lsb0).bind fun _ => ih

theorem foretells_align (n : Nat) : Foretells (BreaksOff failure) (Cut failure more) (align n) := by
  refine .bind (foretells_modify fun _ _ _ => rfl) fun _ => ?_
  refine .get_bind fun r r' h => ?_
  rw [h.byteCount]
  exact foretells_skipBytes _ r r' h

theorem foretells_reset : Foretells (BreaksOff failure) (Cut failure more) reset :=
  foretells_modify fun _ _ _ => rfl

/-! ## Looking for another byte -/

/-- Where the second reader has its bytes makes no difference. -/
theorem Cut.looked (h : Cut failure more r r') (source : Source) (lookahead : Option UInt8)
    (hbytes : lookahead.toList ++ source.bytes = r'.unfetched)
    (hfailure : source.failure = r'.source.failure) :
    Cut failure more r (r'.withBytes source lookahead) := by
  refine ⟨hbytes.trans h.unfetched, h.failure, hfailure.trans h.ended, ?_⟩
  rw [h.same]
  rfl

/-- The second reader alone looks whether it has come to its end. -/
theorem Cut.isExhausted (h : Cut failure more r r') :
    ∃ t, Reader.isExhausted r' = .ok (decide (r'.remaining = 0)) t ∧ Cut failure more r t := by
  simp only [Reader.isExhausted, bind_of_ok (get_apply r'), remaining_eq, Reader.buffered]
  by_cases hused : r'.used < 8
  · refine ⟨r', ?_, h⟩
    rw [if_pos hused, decide_eq_false (by omega)]
    rfl
  · simp only [hused, if_false]
    cases hbytes : r'.unfetched with
    | nil =>
      obtain ⟨source, hsource, hfailure, hlook⟩ := hasByte_of_nil hbytes
      rw [h.ended] at hlook
      refine ⟨_, ?_, h.looked source none (by rw [hsource, hbytes]; rfl) hfailure⟩
      rw [bind_of_ok hlook, decide_eq_true (by rw [List.length_nil]; omega)]
      rfl
    | cons b bs =>
      obtain ⟨source, lookahead, hlook, hsource, hfailure⟩ := hasByte_of_cons hbytes
      refine ⟨_, ?_, h.looked source lookahead hsource hfailure⟩
      rw [bind_of_ok hlook, decide_eq_false (by rw [List.length_cons]; omega)]
      rfl

/-- A look tells the reader of the stream that breaks off as much as the other one: its source fails,
or nothing is missing. -/
def LooksAlike (failure : Option String) (more : List UInt8) : Prop :=
  failure.isSome = true ∨ more = []

section

variable (hlooks : LooksAlike failure more)
include hlooks

/-- A look ahead breaks off only with a failure of the source: an end is an answer. -/
theorem foretells_hasByte : Foretells (BreaksOff failure) (Cut failure more) hasByte := by
  intro r r' h
  cases hbytes : r.unfetched with
  | nil =>
    obtain ⟨source, hsource, hfailure, hlook⟩ := hasByte_of_nil hbytes
    rw [hlook, h.failure]
    cases failure with
    | some message => exact .inl rfl
    | none =>
      obtain rfl : more = [] := hlooks.resolve_left (by simp)
      have hbytes' : r'.unfetched = [] := by rw [h.unfetched, hbytes, List.append_nil]
      obtain ⟨source', hsource', hfailure', hlook'⟩ := hasByte_of_nil hbytes'
      rw [h.ended] at hlook'
      refine ⟨_, hlook', ?_, hfailure.trans h.failure, hfailure'.trans h.ended, ?_⟩
      · simp only [Reader.unfetched, withBytes, hsource, hsource']
        rfl
      · rw [h.same]
        rfl
  | cons b bs =>
    obtain ⟨source, lookahead, hlook, hsource, hfailure⟩ := hasByte_of_cons hbytes
    obtain ⟨source', lookahead', hlook', hsource', hfailure'⟩ :=
      hasByte_of_cons (h.unfetched.trans (congrArg (· ++ more) hbytes))
    rw [hlook]
    refine ⟨_, hlook', ?_, hfailure.trans h.failure, hfailure'.trans h.ended, ?_⟩
    · show lookahead'.toList ++ source'.bytes = (lookahead.toList ++ source.bytes) ++ more
      rw [hsource', hsource, h.unfetched]
    · rw [h.same]
      rfl

theorem foretells_isExhausted :
    Foretells (BreaksOff failure) (Cut failure more) Reader.isExhausted := by
  refine .get_bind fun r r' h => ?_
  rw [h.used]
  by_cases hin : r.used < 8
  · simp only [hin, if_true]
    exact ⟨r', rfl, h⟩
  · simp only [hin, if_false]
    exact (foretells_hasByte hlooks).bind (fun _ => .pure _) r r' h

/-- The look ahead comes first; where it finds no byte the bits at hand decide. -/
theorem foretells_atEndFor (width : Nat) (order : BitOrder) :
    Foretells (BreaksOff failure) (Cut failure more) (atEndFor width order) := by
  refine (foretells_hasByte hlooks).bind fun found => ?_
  split
  · exact .pure _
  · have hbody (buffered used : Nat) (current : UInt8) :
        Foretells (BreaksOff failure) (Cut failure more)
        (if width ≤ buffered then pure false
          else if 0 < buffered ∧ (order.logical current).toNat / 2 ^ used ≠ 0 then
            throw (.paddingNotZero buffered)
          else pure true) := by
      split
      · exact .pure _
      · split
        · exact .throw _
        · exact .pure _
    refine .get_bind fun r r' h => ?_
    rw [h.buffered, h.used, h.current]
    exact hbody r.buffered r.used r.current r r' h

end

end Reader

end RecordLayout
