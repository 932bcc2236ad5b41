import RecordLayout.Proofs.Bits.Writing

/-!
# Mirrored streams

The two bit orders differ in nothing but the way round in which they take the bits of a byte. So
what is done in one order to a stream is done in the other to the stream with the bits of each byte
reversed: the results are the same, the errors are the same, and the states stay mirrored.

Skipping and aligning take the bits in a fixed order, whatever the order of the byte they start in.
This makes no difference either, since what they take is forgotten and what they put is zero.
-/

namespace RecordLayout

/-- A result with its state changed. -/
def onState {ε σ τ α : Type} (f : σ → τ) : EStateM.Result ε σ α → EStateM.Result ε τ α
  | .ok x s => .ok x (f s)
  | .error e s => .error e (f s)

/-- The second operation does from the changed state what the first does, a failure included. -/
def Mirrors {ε σ α : Type} (f : σ → σ) (m m' : EStateM ε σ α) : Prop :=
  ∀ s, m' (f s) = onState f (m s)

namespace Mirrors

variable {ε σ α β : Type} {f : σ → σ}

theorem pure (a : α) : Mirrors f (Pure.pure a : EStateM ε σ α) (Pure.pure a) := fun _ => rfl

theorem throw (e : ε) :
    Mirrors f (MonadExcept.throw e : EStateM ε σ α) (MonadExcept.throw e) := fun _ => rfl

/-- Operations that follow have to mirror each other for every result. -/
theorem bind {m m' : EStateM ε σ α} {g g' : α → EStateM ε σ β} (hm : Mirrors f m m')
    (hg : ∀ a, Mirrors f (g a) (g' a)) : Mirrors f (m >>= g) (m' >>= g') := by
  intro s
  have h := hm s
  cases hs : m s with
  | ok a s₁ =>
    rw [hs] at h
    rw [bind_of_ok h, bind_of_ok hs]
    exact hg a s₁
  | error e s₁ =>
    rw [hs] at h
    rw [bind_of_error h, bind_of_error hs]
    rfl

theorem map {m m' : EStateM ε σ α} (g : α → β) (hm : Mirrors f m m') :
    Mirrors f (g <$> m) (g <$> m') := by
  intro s
  have h := hm s
  cases hs : m s with
  | ok a s₁ =>
    rw [hs] at h
    rw [map_of_ok h, map_of_ok hs]
    rfl
  | error e s₁ =>
    rw [hs] at h
    rw [map_of_error h, map_of_error hs]
    rfl

/-- An operation that begins with a look at the state. -/
theorem get_bind {g g' : σ → EStateM ε σ α} (h : ∀ s, g' (f s) (f s) = onState f (g s s)) :
    Mirrors f (get >>= g) (get >>= g') := h

theorem modify {u u' : σ → σ} (h : ∀ s, u' (f s) = f (u s)) :
    Mirrors f (modify u : EStateM ε σ PUnit) (modify u') := by
  intro s
  exact congrArg (EStateM.Result.ok PUnit.unit) (h s)

/-- The outcomes of two operations are compared as results, with the states behind them. -/
theorem outcome {m m' : EStateM Error σ α} (h : Mirrors f m m') :
    Mirrors f (outcome m) (outcome m') := by
  intro s
  simp only [RecordLayout.outcome, h s]
  cases m s <;> rfl

theorem settle (x : Except Error α) :
    Mirrors f (settle x : EStateM Error σ α) (RecordLayout.settle x) := by
  cases x <;> exact fun _ => rfl

end Mirrors

/-- The same, except that the results are only related. -/
def MirrorsUpTo {ε σ α : Type} (f : σ → σ) (R : α → α → Prop) (m m' : EStateM ε σ α) : Prop :=
  ∀ s, match m s with
    | .ok x s' => ∃ y, m' (f s) = .ok y (f s') ∧ R x y
    | .error e s' => m' (f s) = .error e (f s')

namespace MirrorsUpTo

variable {ε σ α β : Type} {f : σ → σ} {R : α → α → Prop}

theorem pure {x y : α} (h : R x y) :
    MirrorsUpTo f R (Pure.pure x : EStateM ε σ α) (Pure.pure y) := fun _ => ⟨y, rfl, h⟩

theorem throw (e : ε) :
    MirrorsUpTo f R (MonadExcept.throw e : EStateM ε σ α) (MonadExcept.throw e) := fun _ => rfl

/-- What follows has to agree for results that agree. -/
theorem bind {S : β → β → Prop} {m m' : EStateM ε σ α} {g g' : α → EStateM ε σ β}
    (hm : MirrorsUpTo f R m m') (hg : ∀ x y, R x y → MirrorsUpTo f S (g x) (g' y)) :
    MirrorsUpTo f S (m >>= g) (m' >>= g') := by
  intro s
  have h := hm s
  cases hs : m s with
  | ok x s₁ =>
    rw [hs] at h
    obtain ⟨y, hy, hxy⟩ := h
    rw [bind_of_ok hs, bind_of_ok hy]
    exact hg x y hxy s₁
  | error e s₁ =>
    rw [hs] at h
    rw [bind_of_error hs, bind_of_error h]

theorem modify {u u' : σ → σ} (h : ∀ s, u' (f s) = f (u s)) :
    MirrorsUpTo f (fun _ _ => True) (modify u : EStateM ε σ PUnit) (modify u') := by
  intro s
  refine ⟨.unit, ?_, trivial⟩
  exact congrArg (EStateM.Result.ok PUnit.unit) (h s)

/-- Behind related results the operations may again do the same. -/
theorem then_mirrors {m m' : EStateM ε σ α} {g g' : α → EStateM ε σ β}
    (hm : MirrorsUpTo f R m m') (hg : ∀ x y, R x y → Mirrors f (g x) (g' y)) :
    Mirrors f (m >>= g) (m' >>= g') := by
  intro s
  have h := hm s
  cases hs : m s with
  | ok x s₁ =>
    rw [hs] at h
    obtain ⟨y, hy, hxy⟩ := h
    rw [bind_of_ok hs, bind_of_ok hy]
    exact hg x y hxy s₁
  | error e s₁ =>
    rw [hs] at h
    rw [bind_of_error hs, bind_of_error h]
    rfl

end MirrorsUpTo

/-- The zero byte is its own mirror, so that bytes that are skipped may have either order. -/
theorem reverseBits_zero : reverseBits 0 = 0 := by decide

/-! ## Readers -/

namespace Source

def Event.mirror : Event → Event
  | .byte b => .byte (reverseBits b)
  | .interrupted => .interrupted

/-- The source that serves the mirrored bytes. -/
def mirror (s : Source) : Source := ⟨s.events.map Event.mirror, s.failure⟩

theorem mirror_ofBytes (bs : List UInt8) : (ofBytes bs).mirror = ofBytes (bs.map reverseBits) := by
  simp [mirror, ofBytes, Event.mirror]

@[simp] theorem size_mirror (s : Source) : s.mirror.size = s.size := by
  unfold size mirror
  rw [List.countP_map]
  apply List.countP_congr
  rintro (b | _) - <;> rfl

def Answer.mirror : Answer → Answer
  | .byte b rest => .byte (reverseBits b) rest.mirror
  | .ended => .ended
  | .failed message => .failed message

/-- The next byte of the mirrored source is the mirror of the next byte. -/
theorem next_mirror (s : Source) : s.mirror.next = s.next.mirror := by
  rcases s with ⟨events, failure⟩
  unfold next mirror
  induction events with
  | nil => cases failure <;> rfl
  | cons e events ih =>
    cases e with
    | byte b => rfl
    | interrupted => exact ih

/-- Interruptions and failures stay where they are between the bytes. -/
theorem takeUpTo_mirror (count : Nat) (events : List Event) :
    takeUpTo count (events.map Event.mirror) =
      ((takeUpTo count events).1.map reverseBits, (takeUpTo count events).2.map Event.mirror) := by
  induction events generalizing count with
  | nil => cases count <;> rfl
  | cons e events ih =>
    cases count with
    | zero => rfl
    | succ count =>
      cases e with
      | byte b => simp [takeUpTo, Event.mirror, ih count]
      | interrupted => simpa [takeUpTo, Event.mirror] using ih (count + 1)

end Source

namespace Reader

/-- The reader of the mirrored bytes. -/
def mirror (r : Reader) : Reader :=
  { r with
    source := r.source.mirror, lookahead := r.lookahead.map reverseBits
    current := reverseBits r.current }

theorem mirror_ofSource (source : Source) :
    (ofSource source).mirror = ofSource source.mirror := by
  unfold mirror ofSource
  rw [reverseBits_zero]
  rfl

theorem used_mirror (r : Reader) : r.mirror.used = r.used := rfl

theorem buffered_mirror (r : Reader) : r.mirror.buffered = r.buffered := by
  unfold buffered mirror
  rfl

theorem remaining_mirror (r : Reader) : r.mirror.remaining = r.remaining := by
  unfold remaining
  rw [buffered_mirror]
  cases h : r.lookahead <;> simp [mirror, h]

/-- The next byte comes mirrored. -/
theorem mirrors_pull : MirrorsUpTo mirror (fun b b' => b' = b.map reverseBits) pull pull := by
  rintro ⟨source, lookahead, current, used, bitCount, byteCount, fetched⟩
  cases lookahead with
  | some b => exact ⟨_, rfl, rfl⟩
  | none =>
    have hnext := Source.next_mirror source
    simp only [pull, mirror, Option.map_none, hnext]
    cases source.next with
    | byte b rest => exact ⟨_, rfl, rfl⟩
    | ended => exact ⟨_, rfl, rfl⟩
    | failed message => rfl

/-- A look ahead tells whether there is a byte, not which. -/
theorem mirrors_hasByte : Mirrors mirror hasByte hasByte := by
  rintro ⟨source, lookahead, current, used, bitCount, byteCount, fetched⟩
  cases lookahead with
  | some b => rfl
  | none =>
    refine mirrors_pull.then_mirrors ?_ ⟨source, none, current, used, bitCount, byteCount, fetched⟩
    rintro b _ rfl
    refine Mirrors.bind (Mirrors.modify fun _ => rfl) fun _ => ?_
    cases b <;> exact Mirrors.pure _

/-- The first bit of a byte in one order is the first bit of its mirror in the other. -/
theorem mirrors_nextBit : Mirrors mirror (nextBit .msb0) (nextBit .lsb0) := by
  refine Mirrors.get_bind fun r => ?_
  by_cases hused : r.used < 8
  · rw [used_mirror, if_pos hused, if_pos hused]
    rfl
  · rw [used_mirror, if_neg hused, if_neg hused]
    refine mirrors_pull.then_mirrors ?_ r
    rintro b _ rfl
    cases b with
    | none => exact Mirrors.pure _
    | some b => exact Mirrors.bind (Mirrors.modify fun _ => rfl) fun _ => Mirrors.pure _

theorem mirrors_takeBits (width count : Nat) :
    Mirrors mirror (takeBits .msb0 width count) (takeBits .lsb0 width count) := by
  induction count with
  | zero => exact Mirrors.pure _
  | succ count ih =>
    refine Mirrors.bind mirrors_nextBit fun b => ?_
    cases b with
    | none => exact Mirrors.throw _
    | some b => exact Mirrors.bind ih fun _ => Mirrors.pure _

/-- The bits of a number come in the same sequence, so the number is the same. -/
theorem mirrors_readBits (width : Nat) :
    Mirrors mirror (readBits width .msb0) (readBits width .lsb0) := by
  unfold readBits
  split
  · exact Mirrors.throw _
  · refine Mirrors.bind (mirrors_takeBits width width) fun bits => ?_
    exact Mirrors.bind (Mirrors.modify fun _ => rfl) fun _ => Mirrors.pure _

/-- A byte that is not split is reversed once, by the order it is read in. -/
theorem mirrors_readByte : Mirrors mirror (readByte .msb0) (readByte .lsb0) := by
  refine Mirrors.get_bind fun r => ?_
  by_cases hused : r.used < 8
  · rw [used_mirror, if_pos hused, if_pos hused]
    exact Mirrors.bind (mirrors_readBits 8) (fun _ => Mirrors.pure _) r
  · rw [used_mirror, if_neg hused, if_neg hused]
    refine mirrors_pull.then_mirrors ?_ r
    rintro b _ rfl
    cases b with
    | none => exact Mirrors.throw _
    | some b => exact Mirrors.bind (Mirrors.modify fun _ => rfl) fun _ => Mirrors.pure _

theorem mirrors_readEach (count : Nat) :
    Mirrors mirror (readEach .msb0 count) (readEach .lsb0 count) := by
  induction count with
  | zero => exact Mirrors.pure _
  | succ count ih =>
    exact Mirrors.bind mirrors_readByte fun _ => Mirrors.bind ih fun _ => Mirrors.pure _

/-- Bytes in a row are reversed after they have been taken. -/
theorem mirrors_readRun (count : Nat) :
    Mirrors mirror (readRun count .msb0) (readRun count .lsb0) := by
  intro r
  rcases r with ⟨⟨events, failure⟩, lookahead, current, used, bitCount, byteCount, fetched⟩
  have hfirst : (if count = 0 then [] else (lookahead.map reverseBits).toList) =
      (if count = 0 then [] else lookahead.toList).map reverseBits := by
    cases lookahead <;> split <;> rfl
  have hlookahead : (if count = 0 then lookahead.map reverseBits else none) =
      (if count = 0 then lookahead else none).map reverseBits := by
    split <;> rfl
  unfold readRun
  simp only [mirror, Source.mirror, hfirst, hlookahead, List.length_map, Source.takeUpTo_mirror,
    ← List.map_append]
  generalize (if count = 0 then [] else lookahead.toList) = first
  generalize (if count = 0 then lookahead else none) = left
  split
  · simp only [onState, mirror, Source.mirror, List.map_map]
    rfl
  · cases failure <;> rfl

/-- Both paths of the bytes agree with their mirrors, and both readers take the same one. -/
theorem mirrors_readBytes (count : Nat) :
    Mirrors mirror (readBytes count .msb0) (readBytes count .lsb0) := by
  refine Mirrors.get_bind fun r => ?_
  by_cases hused : r.used < 8
  · rw [used_mirror, if_pos hused, if_pos hused]
    exact mirrors_readEach count r
  · rw [used_mirror, if_neg hused, if_neg hused]
    exact mirrors_readRun count r

theorem mirrors_readNumber (size : Nat) (bytes : ByteOrder) :
    Mirrors mirror (readNumber size bytes .msb0) (readNumber size bytes .lsb0) :=
  Mirrors.bind (mirrors_readEach size) fun _ => Mirrors.pure _

theorem mirrors_readTextLength (leading : UInt8) :
    Mirrors mirror (readTextLength leading .msb0) (readTextLength leading .lsb0) := by
  unfold readTextLength
  split
  · exact Mirrors.pure _
  · split
    · refine Mirrors.bind (mirrors_readEach _) fun found => ?_
      dsimp only
      split
      · exact Mirrors.throw _
      · exact Mirrors.pure _
    · exact Mirrors.throw _

theorem mirrors_readText : Mirrors mirror (readText .msb0) (readText .lsb0) := by
  refine Mirrors.bind mirrors_readByte fun leading => ?_
  split
  · exact Mirrors.pure _
  · refine Mirrors.bind (mirrors_readTextLength leading) fun length => ?_
    refine Mirrors.bind (mirrors_readBytes length) fun found => ?_
    split
    · exact Mirrors.pure _
    · exact Mirrors.throw _

/-- The order decides which bits are taken, but not how many. -/
theorem mirrors_nextBit_any (order order' : BitOrder) :
    MirrorsUpTo mirror (fun b b' => b.isSome = b'.isSome) (nextBit order) (nextBit order') := by
  intro r
  by_cases hused : r.used < 8
  · simp only [nextBit, bind_of_ok (get_apply r), bind_of_ok (get_apply r.mirror)]
    rw [used_mirror, if_pos hused, if_pos hused]
    exact ⟨_, rfl, rfl⟩
  · simp only [nextBit, bind_of_ok (get_apply r), bind_of_ok (get_apply r.mirror)]
    rw [used_mirror, if_neg hused, if_neg hused]
    refine mirrors_pull.bind ?_ r
    rintro (_ | b) _ rfl
    · exact MirrorsUpTo.pure rfl
    · refine MirrorsUpTo.bind (MirrorsUpTo.modify ?_) fun _ _ _ => MirrorsUpTo.pure rfl
      exact fun _ => rfl

/-- Bits that nobody looks at may be taken in any order. -/
theorem mirrors_takeBits_any (order order' : BitOrder) (width count : Nat) :
    MirrorsUpTo mirror (fun _ _ => True) (takeBits order width count)
      (takeBits order' width count) := by
  induction count with
  | zero => exact MirrorsUpTo.pure trivial
  | succ count ih =>
    refine (mirrors_nextBit_any order order').bind ?_
    rintro (_ | b) (_ | b') h
    · exact MirrorsUpTo.throw _
    · cases h
    · cases h
    · exact ih.bind fun _ _ _ => MirrorsUpTo.pure trivial

/-- A byte that is dropped may be read in any order. -/
theorem mirrors_readByte_any (order order' : BitOrder) :
    MirrorsUpTo mirror (fun _ _ => True) (readByte order) (readByte order') := by
  intro r
  by_cases hused : r.used < 8
  · simp only [readByte, bind_of_ok (get_apply r), bind_of_ok (get_apply r.mirror)]
    rw [used_mirror, if_pos hused, if_pos hused]
    refine MirrorsUpTo.bind (R := fun _ _ => True) ?_ (fun _ _ _ => MirrorsUpTo.pure trivial) r
    refine (mirrors_takeBits_any order order' 8 8).bind fun _ _ _ => ?_
    refine MirrorsUpTo.bind (MirrorsUpTo.modify ?_) fun _ _ _ => MirrorsUpTo.pure trivial
    exact fun _ => rfl
  · simp only [readByte, bind_of_ok (get_apply r), bind_of_ok (get_apply r.mirror)]
    rw [used_mirror, if_neg hused, if_neg hused]
    refine mirrors_pull.bind ?_ r
    rintro (_ | b) _ rfl
    · exact MirrorsUpTo.throw _
    · refine MirrorsUpTo.bind (MirrorsUpTo.modify ?_) fun _ _ _ => MirrorsUpTo.pure trivial
      exact fun _ => rfl

theorem mirrors_skipBytes (count : Nat) : Mirrors mirror (skipBytes count) (skipBytes count) := by
  induction count with
  | zero => exact Mirrors.pure _
  | succ count ih => exact (mirrors_readByte_any .lsb0 .lsb0).then_mirrors fun _ _ _ => ih

theorem mirrors_align (n : Nat) : Mirrors mirror (align n) (align n) := by
  refine Mirrors.bind (Mirrors.modify fun r => ?_) fun _ => ?_
  · rw [buffered_mirror]
    rfl
  · exact Mirrors.get_bind fun r => mirrors_skipBytes _ r

theorem mirrors_reset : Mirrors mirror reset reset := Mirrors.modify fun _ => rfl

theorem mirrors_isExhausted : Mirrors mirror isExhausted isExhausted := by
  refine Mirrors.get_bind fun r => ?_
  by_cases hused : r.used < 8
  · rw [used_mirror, if_pos hused]
    rfl
  · rw [used_mirror, if_neg hused]
    exact Mirrors.bind mirrors_hasByte (fun _ => Mirrors.pure _) r

/-- Zero bits are the mirror of zero bits, so that the padding is the same. -/
theorem mirrors_atEndFor (width : Nat) :
    Mirrors mirror (atEndFor width .msb0) (atEndFor width .lsb0) := by
  refine Mirrors.bind mirrors_hasByte fun more => ?_
  cases more with
  | true => exact Mirrors.pure _
  | false =>
    refine Mirrors.get_bind fun r => ?_
    rw [buffered_mirror]
    by_cases hwidth : width ≤ r.buffered
    · rw [if_pos hwidth, if_pos hwidth]
      rfl
    · have hcurrent : BitOrder.lsb0.logical r.mirror.current = BitOrder.msb0.logical r.current :=
        rfl
      rw [if_neg hwidth, if_neg hwidth, hcurrent, used_mirror]
      split
      · rfl
      · rfl

end Reader

open Reader in
/-- A custom type sees the bits of the stream in their order only. -/
theorem ReadProgram.mirrors_run (program : ReadProgram) :
    Mirrors mirror (program.run .msb0) (program.run .lsb0) := by
  induction program with
  | done result => exact Mirrors.settle result
  | bits width next ih => exact Mirrors.bind (mirrors_readBits _).outcome ih
  | byte next ih => exact Mirrors.bind mirrors_readByte.outcome ih
  | exhausted next ih => exact Mirrors.bind mirrors_isExhausted.outcome ih
  | measured next ih =>
    refine Mirrors.get_bind fun r => ?_
    rw [remaining_mirror]
    exact ih r.remaining r

end RecordLayout
