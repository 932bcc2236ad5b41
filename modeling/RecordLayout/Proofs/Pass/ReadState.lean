import RecordLayout.Pass.Decode
import RecordLayout.Proofs.Layout.Format

/-!
# Where a read pass stands

The state of a read pass stands at a place of the record, and an operation of the pass reads bits:
these are the ones in front, and the state afterwards has the rest ahead.
-/

namespace RecordLayout

namespace Reader

/-- The second state is the first one after these bits, which were in front and are counted. -/
structure Reads (order : BitOrder) (bits : List Bool) (r r' : Reader) : Prop
    extends Takes bits.length r r' where
  front : r.ahead order = bits ++ r'.ahead order

variable {order : BitOrder} {bits bits' : List Bool} {r r₁ r₂ : Reader}

theorem Reads.refl (hs : r.Sound) : Reads order [] r r := ⟨Takes.refl hs, rfl⟩

theorem Reads.trans (h₁ : Reads order bits r r₁) (h₂ : Reads order bits' r₁ r₂) :
    Reads order (bits ++ bits') r r₂ := by
  refine ⟨?_, by rw [h₁.front, h₂.front, List.append_assoc]⟩
  rw [List.length_append]
  exact h₁.toTakes.trans h₂.toTakes

/-- What an operation took were the bits in front. -/
theorem Takes.reads {n : Nat} (h : Takes n r r₁) (order : BitOrder) :
    Reads order ((r.ahead order).take n) r r₁ := by
  have hlen : ((r.ahead order).take n).length = n := by
    rw [List.length_take, length_ahead]
    exact Nat.min_eq_left h.enough
  exact ⟨by rwa [hlen], h.ahead_eq order⟩

/-- An operation that takes as many bits as stand in front reads these. -/
theorem Takes.reads_of_front {rest : List Bool} (h : Takes bits.length r r₁)
    (hfront : r.ahead order = bits ++ rest) : Reads order bits r r₁ :=
  ⟨h, by rw [hfront, h.rest_eq hfront]⟩

end Reader

namespace Decode

/-- The pass stands at a place. -/
structure At (p : Place) (s : PassState Reader) : Prop where
  numbers : s.numbers = p.numbers
  position : s.stream.position = p.position
  sound : s.stream.Sound
  ends : s.stream.source.failure = none

/-- The pass has read these bits, in the bit order of its options. -/
structure Advances (ctx : PassContext) (bits : List Bool) (s s' : PassState Reader) : Prop where
  consumes : Reader.Consumes bits.length s.stream s'.stream
  front : s.stream.ahead ctx.options.bitOrder = bits ++ s'.stream.ahead ctx.options.bitOrder

variable {ctx : PassContext} {p : Place} {s s₁ s₂ s' : PassState Reader} {bits bits' : List Bool}

/-- At a place an expression sees the numbers and the bytes of the place. -/
theorem At.env (h : At p s) : PassM.env ctx s = p.env ctx := by
  have hcount : ByteCounter.count s.stream = (p.position + 7) / 8 := by
    rw [← h.position]
    exact h.sound.byteCount_eq
  rw [PassM.env, Place.env, hcount, h.numbers]

/-- Questions to the resolver move nothing. -/
theorem At.asking (h : At p s) (questions : List (String × Expr)) :
    At p { s with asked := questions } :=
  ⟨h.numbers, h.position, h.sound, h.ends⟩

theorem Advances.refl (h : s.stream.Sound) : Advances ctx [] s s :=
  ⟨(Reader.Takes.refl h).toConsumes, rfl⟩

theorem Advances.trans (h₁ : Advances ctx bits s s₁) (h₂ : Advances ctx bits' s₁ s₂) :
    Advances ctx (bits ++ bits') s s₂ := by
  refine ⟨?_, by rw [h₁.front, h₂.front, List.append_assoc]⟩
  rw [List.length_append]
  exact h₁.consumes.trans h₂.consumes

/-- Pieces that are read one after the other. -/
theorem Advances.append {first later : List Piece} {s₁ : PassState Reader}
    (h : Advances ctx (first.flatMap Piece.bits) s s₁)
    (h' : Advances ctx (later.flatMap Piece.bits) s₁ s') :
    Advances ctx ((first ++ later).flatMap Piece.bits) s s' := by
  rw [List.flatMap_append]
  exact h.trans h'

/-- Numbers and questions do not belong to the stream. -/
theorem Advances.of_stream_eq (h : Advances ctx bits s s') (hs : s.stream = s₁.stream)
    (hs' : s'.stream = s₂.stream) : Advances ctx bits s₁ s₂ :=
  ⟨hs ▸ hs' ▸ h.consumes, hs ▸ hs' ▸ h.front⟩

/-- Bits that are read and counted move the place. -/
theorem At.reads (h : At p s) {r : Reader}
    (hr : Reader.Reads ctx.options.bitOrder bits s.stream r) :
    At (p.advance bits.length) { s with stream := r } ∧
      Advances ctx bits s { s with stream := r } :=
  ⟨⟨h.numbers, by rw [hr.position, h.position]; rfl, hr.sound, hr.failure.trans h.ends⟩,
    ⟨hr.toConsumes, hr.front⟩⟩

/-- A value that is registered counts from now on. -/
theorem At.register (h : At p s) (info : Option FieldInfo) (v : Value) :
    ∃ s', PassM.register info v s = .ok () s' ∧ At (p.note info v) s' ∧ s'.stream = s.stream := by
  obtain ⟨s', hregister, hnumbers, hstream⟩ := PassM.register_of_numbers h.numbers info v
  refine ⟨s', hregister, ⟨hnumbers, ?_, ?_, ?_⟩, hstream⟩
  · rw [hstream, h.position, Place.note_position]
  · rw [hstream]
    exact h.sound
  · rw [hstream]
    exact h.ends

/-- A strict pass does not look for the end of the record. -/
theorem endsBefore_of_strict (hstrict : ctx.options.lenient = false) (holds : Bool) :
    endsBefore ctx holds = pure false := by
  rw [endsBefore, hstrict]
  rfl

end Decode

/-- An operation of the stream that succeeds changes the stream alone. -/
theorem PassM.onStream_eq_ok {δ α : Type} {m : EStateM Error δ α} {s s' : PassState δ} {x : α} :
    PassM.onStream m s = .ok x s' ↔
      ∃ stream, m s.stream = .ok x stream ∧ s' = { s with stream := stream } := by
  simp only [PassM.onStream]
  cases m s.stream with
  | ok y stream =>
    simp only [EStateM.Result.ok.injEq]
    constructor
    · rintro ⟨rfl, rfl⟩
      exact ⟨stream, ⟨rfl, rfl⟩, rfl⟩
    · rintro ⟨_, ⟨rfl, rfl⟩, rfl⟩
      exact ⟨rfl, rfl⟩
  | error e stream => simp

theorem PassM.onStream_of_ok {δ α : Type} {m : EStateM Error δ α} {s : PassState δ} {stream : δ}
    {x : α} (h : m s.stream = .ok x stream) :
    PassM.onStream m s = .ok x { s with stream := stream } :=
  onStream_eq_ok.mpr ⟨stream, h, rfl⟩

end RecordLayout
