import RecordLayout.Pass.Encode
import RecordLayout.Proofs.Layout.Format

/-!
# Where a write pass stands

The state of a write pass stands at a place of the record, and an operation of the pass puts bits
behind those written and takes items from the front of those left. Values and elements are written
here, as a supplied value that a normalization brings into the form of its type.
-/

namespace RecordLayout.Encode

/-- The pass stands at a place, and its sink takes everything. -/
structure At (ctx : PassContext) (p : Place) (s : PassState Feed) : Prop where
  numbers : s.numbers = p.numbers
  position : s.stream.writer.position = p.position
  ready : s.stream.writer.Ready ctx.options.bitOrder

/-- The pass has put these bits and taken these items. -/
structure Puts (ctx : PassContext) (bits : List Bool) (taken : List Item)
    (s s' : PassState Feed) : Prop where
  adds : Writer.Adds ctx.options.bitOrder bits s.stream.writer s'.stream.writer
  items : s.stream.items = taken ++ s'.stream.items

/-- An operation of the writer that writes these bits and nothing else. -/
def WritesOnly (ctx : PassContext) (bits : List Bool) (s s' : PassState Feed) : Prop :=
  ∃ w, s' = { s with stream := { s.stream with writer := w } } ∧
    Writer.Writes ctx.options.bitOrder bits s.stream.writer w

variable {ctx : PassContext} {p : Place} {s s₁ s' : PassState Feed} {bits bits' : List Bool}
  {taken taken' : List Item}

/-- At a place an expression sees the numbers and the bytes of the place. -/
theorem At.env (h : At ctx p s) : PassM.env ctx s = p.env ctx := by
  have hcount : ByteCounter.count s.stream = (p.position + 7) / 8 := by
    rw [← h.position]
    exact h.ready.streamCount_eq
  rw [PassM.env, Place.env, hcount, h.numbers]

/-- Questions to the resolver move nothing. -/
theorem At.asking (h : At ctx p s) (questions : List (String × Expr)) :
    At ctx p { s with asked := questions } :=
  ⟨h.numbers, h.position, h.ready⟩

theorem Puts.refl (h : s.stream.writer.Ready ctx.options.bitOrder) : Puts ctx [] [] s s :=
  ⟨(Writer.Writes.refl h).toAdds, rfl⟩

theorem Puts.trans (h₁ : Puts ctx bits taken s s₁) (h₂ : Puts ctx bits' taken' s₁ s') :
    Puts ctx (bits ++ bits') (taken ++ taken') s s' :=
  ⟨h₁.adds.trans h₂.adds, by rw [h₁.items, h₂.items, List.append_assoc]⟩

/-- Numbers and questions do not belong to the stream. -/
theorem Puts.of_stream_eq {s₂ : PassState Feed} (h : Puts ctx bits taken s s')
    (hs : s.stream = s₁.stream) (hs' : s'.stream = s₂.stream) : Puts ctx bits taken s₁ s₂ :=
  ⟨hs ▸ hs' ▸ h.adds, hs ▸ hs' ▸ h.items⟩

theorem WritesOnly.refl (h : s.stream.writer.Ready ctx.options.bitOrder) : WritesOnly ctx [] s s :=
  ⟨s.stream.writer, rfl, Writer.Writes.refl h⟩

theorem WritesOnly.trans (h₁ : WritesOnly ctx bits s s₁) (h₂ : WritesOnly ctx bits' s₁ s') :
    WritesOnly ctx (bits ++ bits') s s' := by
  obtain ⟨w₁, rfl, hw₁⟩ := h₁
  obtain ⟨w₂, rfl, hw₂⟩ := h₂
  exact ⟨w₂, rfl, hw₁.trans hw₂⟩

/-- Bits that the writer takes move the place, whatever items and questions there are. -/
theorem At.wrote {w : Writer} (hat : At ctx p s)
    (h : Writer.Writes ctx.options.bitOrder bits s.stream.writer w) (items : List Item)
    (questions : List (String × Expr)) :
    At ctx (p.advance bits.length) { s with stream := ⟨w, items⟩, asked := questions } := by
  refine ⟨hat.numbers, ?_, h.ready⟩
  show w.position = p.position + bits.length
  rw [h.position, hat.position]

theorem WritesOnly.ready (h : WritesOnly ctx bits s s') :
    s'.stream.writer.Ready ctx.options.bitOrder := by
  obtain ⟨w, rfl, hw⟩ := h
  exact hw.ready

/-- Bits that are written and counted move the place. -/
theorem WritesOnly.puts {questions : List (String × Expr)} (hat : At ctx p s)
    (h : WritesOnly ctx bits { s with asked := questions } s') :
    At ctx (p.advance bits.length) s' ∧ Puts ctx bits [] s s' := by
  obtain ⟨w, rfl, hw⟩ := h
  exact ⟨hat.wrote hw _ _, hw.toAdds, rfl⟩

/-- A value that is registered counts from now on. -/
theorem At.register (h : At ctx p s) (info : Option FieldInfo) (v : Value) :
    ∃ s', PassM.register info v s = .ok () s' ∧ At ctx (p.note info v) s' ∧
      s'.stream = s.stream := by
  obtain ⟨s', hregister, hnumbers, hstream⟩ := PassM.register_of_numbers h.numbers info v
  refine ⟨s', hregister, ⟨hnumbers, ?_, ?_⟩, hstream⟩
  · rw [hstream, h.position, Place.note_position]
  · rw [hstream]
    exact h.ready

theorem onWriter_of_ok {α : Type} {m : WriteM α} {x : α} {w : Writer}
    (h : m s.stream.writer = .ok x w) :
    onWriter m s = .ok x { s with stream := { s.stream with writer := w } } := by
  simp only [onWriter, PassM.onStream, h]

/-- An operation of the writer that succeeds changes the writer alone. -/
theorem onWriter_eq_ok {α : Type} {m : WriteM α} {x : α} (h : onWriter m s = .ok x s') :
    ∃ w, m s.stream.writer = .ok x w ∧ s' = { s with stream := { s.stream with writer := w } } := by
  simp only [onWriter, PassM.onStream] at h
  cases hm : m s.stream.writer with
  | ok y w =>
    rw [hm] at h
    cases h
    exact ⟨w, rfl, rfl⟩
  | error e w =>
    rw [hm] at h
    cases h

/-! ## Values -/

variable {head : Header} {type : ElementType} {width : Nat} {u v : Value}

/-- A value that fits is written as it is spelled. -/
theorem put_of_fits (head : Header) {env : Expr.Env}
    (hready : s.stream.writer.Ready ctx.options.bitOrder)
    (hwidth : type.width env = .ok width) (hfits : type.Fits width v) :
    ∃ w, put ctx head width v type s.stream.writer = .ok () w ∧
      Writer.Writes ctx.options.bitOrder (type.spell head.order width v) s.stream.writer w := by
  cases type with
  | fixed type => exact Writer.writeNumber_of_ready hready _ _ _
  | bit a =>
    obtain ⟨hpos, hle⟩ := ElementType.width_bit hwidth
    obtain ⟨-, x, rfl, hx⟩ := hfits
    obtain ⟨w, hwrite, hwrites⟩ :=
      Writer.writeBits_of_ready hready (.ofNat x.toNat) hpos (show width ≤ 64 by omega)
    refine ⟨w, hwrite, ?_⟩
    rwa [UInt64.toNat_ofNat', Nat.mod_eq_of_lt (by have := x.toNat_lt; omega)] at hwrites
  | text =>
    obtain ⟨t, rfl, ht⟩ := hfits
    exact Writer.writeText_of_ready hready ht
  | custom use extra => exact hfits.elim

/-- The normal form of a value is written by the bits that spell it. -/
theorem element_of_normalize (head : Header) {env : Expr.Env}
    (hready : s.stream.writer.Ready ctx.options.bitOrder) (hwidth : type.width env = .ok width)
    (hnormal : type.normalize width u = some v) (hfits : type.Fits width v) :
    ∃ s', element ctx head width type u s = .ok (some v) s' ∧
      WritesOnly ctx (type.spell head.order width v) s s' := by
  obtain ⟨w, hput, hwrites⟩ := put_of_fits head hready hwidth hfits
  refine ⟨_, ?_, w, rfl, hwrites⟩
  cases type with
  | custom use extra => exact hfits.elim
  | _ =>
    simp only [element, hnormal]
    exact (bind_of_ok (onWriter_of_ok hput)).trans rfl

end RecordLayout.Encode
