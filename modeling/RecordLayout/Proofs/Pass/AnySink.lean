import RecordLayout.Proofs.Pass.WriteSimulation

/-!
# Limits of a sink

A sink may refuse bytes, and may fail to pass on what it holds. This is all it can do: a write that
succeeds does the same to a sink without limits. Custom types are left out, since their programs see
the refusals and may go on behind them.
-/

namespace RecordLayout

/-- The operation does the same from the changed state, if it succeeds. -/
abbrev Carries {σ α : Type} (f : σ → σ) (m : EStateM Error σ α) : Prop :=
  Foretells (fun _ => True) (fun s s' => s' = f s) m

namespace Carries

variable {σ α : Type} {f : σ → σ} {m : EStateM Error σ α}

theorem of_ok (h : ∀ s x t, m s = .ok x t → m (f s) = .ok x (f t)) : Carries f m := by
  rintro s s' rfl
  cases hrun : m s with
  | ok x t => exact ⟨f t, h s x t hrun, rfl⟩
  | error e t => exact .inl trivial

theorem eq_ok (h : Carries f m) {s t : σ} {x : α} (hrun : m s = .ok x t) :
    m (f s) = .ok x (f t) := by
  have hm := h s (f s) rfl
  rw [hrun] at hm
  obtain ⟨t', hrun', rfl⟩ := hm
  exact hrun'

end Carries

/-! ## The writer -/

/-- The sink without its limits. -/
def Sink.unlimited (s : Sink) : Sink := ⟨s.received, none, none⟩

namespace Writer

/-- The writer with its sink without limits. -/
def unlimited (w : Writer) : Writer := { w with sink := w.sink.unlimited }

theorem used_unlimited (w : Writer) : w.unlimited.used = w.used := rfl

/-- A byte that the sink accepts is accepted without limits. -/
theorem carries_emit (b : UInt8) : Carries unlimited (emit b) := by
  apply Carries.of_ok
  intro w x w' h
  simp only [emit, Sink.put] at h
  split at h
  · rename_i sink hput
    cases h
    split at hput
    · cases hput
      rfl
    · split at hput
      · cases hput
        rfl
      · cases hput
  · cases h

/-- A flush puts the byte that was begun, if there is one. -/
theorem carries_flushBits : Carries unlimited flushBits := by
  apply Carries.of_ok
  intro w x w' h
  have happly : ∀ w, flushBits w =
      if 0 < w.used then emit w.current { w with current := 0, used := 0 } else .ok () w := by
    intro w
    simp only [flushBits, bind_of_ok (get_apply w)]
    split <;> rfl
  rw [happly] at h ⊢
  by_cases hused : 0 < w.used
  · rw [if_pos hused] at h
    rw [used_unlimited, if_pos hused]
    exact (carries_emit _).eq_ok h
  · rw [if_neg hused] at h
    rw [used_unlimited, if_neg hused]
    cases h
    rfl

/-- A bit puts a byte if it completes one. -/
theorem carries_putBit (order : BitOrder) (b : Bool) : Carries unlimited (putBit order b) := by
  apply Carries.of_ok
  intro w x w' h
  simp only [putBit, bind_of_ok (get_apply _)] at h ⊢
  by_cases hused : w.used < 7
  · rw [if_pos hused] at h
    rw [used_unlimited, if_pos hused]
    cases h
    rfl
  · rw [if_neg hused] at h
    rw [used_unlimited, if_neg hused]
    exact (carries_emit _).eq_ok h

theorem carries_putBits (order : BitOrder) (bits : List Bool) :
    Carries unlimited (putBits order bits) := by
  induction bits with
  | nil => exact .pure _
  | cons b bits ih => exact (carries_putBit order b).bind fun _ => ih

/-- The bit counter plays no part. -/
theorem carries_count (count : Nat → Nat) :
    Carries unlimited (modify fun w => { w with bitCount := count w.bitCount } : WriteM PUnit) := by
  exact .modify fun w w' hw => by rw [hw]; rfl

theorem carries_writeBits (value : UInt64) (width : Nat) (order : BitOrder) :
    Carries unlimited (writeBits value width order) := by
  unfold writeBits
  split
  · exact (Foretells.throw _).bind fun _ =>
      (carries_putBits _ _).bind fun _ => carries_count (· + width)
  · exact (carries_putBits _ _).bind fun _ => carries_count (· + width)

/-- A byte is put whole at a boundary, and bit by bit behind single bits. -/
theorem carries_writeByte (b : UInt8) (order : BitOrder) :
    Carries unlimited (writeByte b order) := by
  apply Carries.of_ok
  intro w x w' h
  simp only [writeByte, bind_of_ok (get_apply _)] at h ⊢
  by_cases hused : w.used = 0
  · rw [if_pos hused] at h
    rw [used_unlimited, if_pos hused]
    have hbyte := (carries_emit (order.logical b)).bind fun _ => carries_count (· + 8)
    exact Carries.eq_ok hbyte h
  · rw [if_neg hused] at h
    rw [used_unlimited, if_neg hused]
    exact (carries_writeBits _ _ _).eq_ok h

theorem carries_writeBytes (bs : List UInt8) (order : BitOrder) :
    Carries unlimited (writeBytes bs order) := by
  induction bs with
  | nil => exact .pure _
  | cons b bs ih => exact (carries_writeByte b order).bind fun _ => ih

theorem carries_writeText (text : Option String) (order : BitOrder) :
    Carries unlimited (writeText text order) := by
  cases text with
  | none => exact carries_writeByte _ _
  | some text =>
    simp only [writeText]
    split
    · exact (Foretells.throw _).bind fun _ =>
        (carries_writeBytes _ _).bind fun _ => carries_writeBytes _ _
    · exact (carries_writeBytes _ _).bind fun _ => carries_writeBytes _ _

theorem carries_skipBytes (count : Nat) : Carries unlimited (skipBytes count) := by
  induction count with
  | zero => exact .pure _
  | succ count ih => exact (carries_writeByte _ _).bind fun _ => ih

theorem carries_leaveByte : Carries unlimited leaveByte := by
  apply Carries.of_ok
  intro w x w' h
  simp only [leaveByte, bind_of_ok (get_apply _)] at h ⊢
  by_cases hused : 0 < w.used
  · rw [if_pos hused] at h
    rw [used_unlimited, if_pos hused]
    exact carries_flushBits.eq_ok h
  · rw [if_neg hused] at h
    rw [used_unlimited, if_neg hused]
    cases h
    rfl

theorem carries_align (n : Nat) : Carries unlimited (align n) := by
  refine carries_leaveByte.bind fun _ => ?_
  apply Carries.of_ok
  intro w x w' h
  rw [bind_of_ok (get_apply _)] at h ⊢
  exact (carries_skipBytes _).eq_ok h

theorem carries_reset : Carries unlimited reset := by
  refine carries_flushBits.bind fun _ => ?_
  exact .modify fun w w' hw => by rw [hw]; rfl

/-- The last flush passes on what the sink holds, which a sink without limits never refuses. -/
theorem carries_finish : Carries unlimited finish := by
  refine carries_flushBits.bind fun _ => ?_
  apply Carries.of_ok
  intro w x w' h
  rw [bind_of_ok (get_apply _)] at h ⊢
  cases hflush : w.sink.flushFailure with
  | some message =>
    rw [hflush] at h
    cases h
  | none =>
    rw [hflush] at h
    cases h
    rfl

end Writer

/-! ## The pass -/

/-- The second feed is the first one with a sink without limits. -/
def Feed.Freed (f f' : Feed) : Prop := f' = { f with writer := f.writer.unlimited }

namespace Encode

variable {ctx : PassContext}

/-- A value of each type puts bytes, bits or a text; the program of a custom type is not a part of
it. -/
theorem carries_put (head : Header) (width : Nat) (v : Value) (type : ElementType) :
    Carries Writer.unlimited (put ctx head width v type) := by
  cases type with
  | fixed type => exact Writer.carries_writeBytes _ _
  | bit _ => exact Writer.carries_writeBits _ _ _
  | text => exact Writer.carries_writeText _ _
  | custom _ _ => exact .pure _

/-- What a writer carries a pass carries, whose items are not touched. -/
theorem foretells_freed {α : Type} {m : WriteM α} (h : Carries Writer.unlimited m) :
    Foretells (fun _ => True) (PassState.Along Feed.Freed) (onWriter m) := by
  refine PassM.foretells_onStream ?_
  rintro f f' rfl
  dsimp only
  cases hrun : m f.writer with
  | ok x w =>
    rw [h.eq_ok hrun]
    exact ⟨_, rfl, rfl⟩
  | error e w => exact .inl trivial

/-- All operations of a write pass are carried. -/
theorem feedsAlike_freed (ctx : PassContext) : FeedsAlike (fun _ => True) Feed.Freed ctx where
  count := by
    rintro f f' rfl
    rfl
  put head width v type := foretells_freed (carries_put head width v type)
  bytes bs := foretells_freed (Writer.carries_writeBytes bs _)
  align n := foretells_freed (Writer.carries_align n)
  skip n := foretells_freed (Writer.carries_skipBytes n)
  reset := foretells_freed Writer.carries_reset
  items := by
    rintro f f' rfl
    rfl
  leave := by
    rintro f f' items rfl
    rfl

/-- A write pass that succeeds does the same to a sink without limits. -/
theorem fields_freed {l : Layout} (hcustom : l.customUses = []) {s s' t : PassState Feed}
    {flow : Flow} (hs : s.Along Feed.Freed s') (h : fields ctx l s = .ok flow t) :
    ∃ t', fields ctx l s' = .ok flow t' ∧ t.Along Feed.Freed t' := by
  have hfields := (feedsAlike_freed ctx).fields (l := l) (by rw [hcustom]; exact nofun) s s' hs
  rw [h] at hfields
  exact hfields

end Encode

end RecordLayout
