import RecordLayout.Proofs.Bits.Filling
import RecordLayout.Proofs.Pass.Parts

/-!
# Write passes to sinks that fill up

Whatever a write pass does, it only adds to what its sink has received, and a limit of the sink cuts
it off: the pass does the same while the bytes fit and fails with the sink. Custom types are left
out, since their programs see the refusals and may go on behind them.
-/

namespace RecordLayout

open HasSink

instance : HasSink (PassState Feed) where
  sink s := s.stream.writer.sink
  withSink s k := { s with stream := { s.stream with writer := { s.stream.writer with sink := k } } }

namespace Encode

variable {α : Type} {ctx : PassContext}

theorem fills_onWriter {m : WriteM α} (h : Fills m) : Fills (onWriter m) := by
  intro s hs
  obtain ⟨hunlimited, hgrows, hcuts⟩ := h s.stream.writer hs
  have hrun (t : PassState Feed) : onWriter m t =
      onState (fun w => { t with stream := { t.stream with writer := w } }) (m t.stream.writer) := by
    unfold onWriter PassM.onStream
    dsimp only
    cases m t.stream.writer <;> rfl
  have hsink : sink (stateOf (onWriter m s)) = sink (stateOf (m s.stream.writer)) := by
    rw [hrun]
    cases m s.stream.writer <;> rfl
  have hreceived : received (stateOf (onWriter m s)) = received (stateOf (m s.stream.writer)) := by
    rw [received, hsink, received]
  refine ⟨?_, ?_, fun n message hle => ?_⟩
  · rw [Unlimited, hsink]
    exact hunlimited
  · rw [hreceived]
    exact hgrows
  · have hlimited : onWriter m (limited n message s) =
        onState (fun w => { s with stream := { s.stream with writer := w } })
          (m (limited n message s.stream.writer)) := hrun (limited n message s)
    rw [CutsOff, hreceived, hlimited]
    rcases hcuts n message hle with ⟨hfits, hsame⟩ | ⟨hover, w, hrefused, hw⟩
    · refine .inl ⟨hfits, ?_⟩
      rw [hsame, hrun]
      cases m s.stream.writer <;> rfl
    · refine .inr ⟨hover, { s with stream := { s.stream with writer := w } }, ?_, hw⟩
      rw [hrefused]
      rfl

theorem fills_eval (e : Expr) : Fills (PassM.eval ctx e : PassM Feed Int64) := by
  intro s hs
  have henv : ∀ n message, PassM.env ctx (limited n message s) = PassM.env ctx s := fun _ _ => rfl
  refine .of_keeps hs ?_ fun n message => ?_
  · unfold PassM.eval
    dsimp only
    split <;> rfl
  · simp only [PassM.eval, henv]
    cases e.eval (PassM.env ctx s) <;> rfl

theorem fills_register (info : Option FieldInfo) (v : Value) :
    Fills (PassM.register info v : PassM Feed Unit) := by
  unfold PassM.register
  split
  · exact Fills.modify (fun _ => rfl) fun _ _ _ => rfl
  · exact .pure _

/-- A value that is put is cut off by a limit of the sink, whatever its type. -/
theorem fills_put (head : Header) (width : Nat) (v : Value) (type : ElementType) :
    Fills (put ctx head width v type) := by
  cases type with
  | fixed type => exact Writer.fills_writeBytes _ _
  | bit _ => exact Writer.fills_writeBits _ _ _
  | text => exact Writer.fills_writeText _ _
  | custom _ _ => exact .pure _

/-- What follows a round of a repetition that began with so many items. -/
def afterRound (idle : Error) (body : PassM Feed Flow) (items : Nat) : Flow → PassM Feed Flow
  | .stop => pure .stop
  | .goOn => fun s =>
    if s.stream.items.length < items then whileItems idle body s else .error idle s

theorem whileItems_nil {body : PassM Feed Flow} {idle : Error} {s : PassState Feed}
    (h : s.stream.items.isEmpty = true) : whileItems idle body s = .ok .goOn s := by
  rw [whileItems, if_pos h]

/-- With items the next round is one element, and it must take some. -/
theorem whileItems_round {body : PassM Feed Flow} {idle : Error} {s : PassState Feed}
    (h : ¬ s.stream.items.isEmpty = true) :
    whileItems idle body s = (body >>= afterRound idle body s.stream.items.length) s := by
  rw [whileItems, if_neg h]
  cases hrun : body s with
  | error e t => rw [bind_of_error hrun]
  | ok flow t =>
    rw [bind_of_ok hrun]
    cases flow <;> rfl

/-- The induction is on the items that are left, which a limit of the sink does not change. -/
theorem fills_whileItems {body : PassM Feed Flow} (hbody : Fills body) (idle : Error) :
    Fills (whileItems idle body) := by
  intro s hs
  induction hlength : s.stream.items.length using Nat.strongRecOn generalizing s with
  | ind n ih =>
  by_cases hempty : s.stream.items.isEmpty = true
  · exact (Fills.pure Flow.goOn s hs).of_eq rfl (whileItems_nil hempty) fun _ _ =>
      whileItems_nil hempty
  · refine FillsAt.of_eq ?_ rfl (whileItems_round hempty) fun _ _ => whileItems_round hempty
    refine (hbody s hs).bind fun flow t hrun => ?_
    have ht := (hbody s hs).unlimited
    rw [hrun] at ht
    cases flow with
    | stop => exact Fills.pure _ t ht
    | goOn =>
      by_cases hless : t.stream.items.length < s.stream.items.length
      · exact (ih _ (hlength ▸ hless) t ht rfl).of_eq rfl (if_pos hless) fun _ _ => if_pos hless
      · exact (Fills.throw idle t ht).of_eq rfl (if_neg hless) fun _ _ => if_neg hless

/-- All that a write pass is made of adds to the sink until a limit cuts it off. -/
theorem fills_parts (ctx : PassContext) : Parts ctx fun m => Fills m where
  pure := .pure
  throw := .throw
  bind_of_ok := .bind_of_ok
  eval := fills_eval
  register := fills_register
  put head width v type := fills_onWriter (fills_put head width v type)
  bytes bs := fills_onWriter (Writer.fills_writeBytes bs _)
  align n := fills_onWriter (Writer.fills_align n)
  skip n := fills_onWriter (Writer.fills_skipBytes n)
  reset := fills_onWriter Writer.fills_reset
  remaining := Fills.get_bind (fun _ _ _ => rfl) fun _ => .pure _
  leave _ := Fills.modify (fun _ => rfl) fun _ _ _ => rfl
  whileItems := fills_whileItems

/-- A limit of the sink cuts off the write of a record. -/
theorem fills_record {l : Layout} (hcustom : l.customUses = []) : Fills (record ctx l) :=
  (fills_parts ctx).record (by rw [hcustom]; exact nofun) (fills_onWriter Writer.fills_finish)

end Encode

end RecordLayout
