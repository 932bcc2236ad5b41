import RecordLayout.Proofs.Bits.Counting
import RecordLayout.Proofs.Bits.Skipping
import RecordLayout.Proofs.Checked.Fault

/-!
# Progress of a reader

A reader goes forward only, and what it has ahead is what it has not taken yet. This holds through
operations that fail as well, which a custom type may survive, because the stream ends or because its
source fails: the bits that they found before are taken.
-/

namespace RecordLayout

theorem Retains.keeps {ε σ α : Type} {P : σ → Prop} {m : EStateM ε σ α} (h : Retains P m) :
    Keeps P m := by
  intro s x s' hs hrun
  have hm := h s hs
  rwa [hrun] at hm

namespace Reader

/-- The reader has come from the other one by taking bits. -/
def From (start r : Reader) : Prop := ∃ n, Consumes n start r

variable {start r r' : Reader}

theorem From.refl (h : start.Sound) : From start start := ⟨0, (Takes.refl h).toConsumes⟩

theorem From.sound (h : From start r) : r.Sound := h.choose_spec.sound

theorem From.failure (h : From start r) : r.source.failure = start.source.failure :=
  h.choose_spec.failure

theorem From.consumes {n : Nat} (h : From start r) (h' : Consumes n r r') : From start r' := by
  obtain ⟨m, hm⟩ := h
  exact ⟨m + n, hm.trans h'⟩

theorem From.takes {n : Nat} (h : From start r) (h' : Takes n r r') : From start r' :=
  h.consumes h'.toConsumes

/-- The reader has come from another one that has come from the first. -/
theorem From.trans (h : From start r) (h' : From r r') : From start r' := by
  obtain ⟨n, hn⟩ := h'
  exact h.consumes hn

/-- Nothing comes behind the last bit. -/
theorem From.spent (h : From start r) (hspent : start.remaining = 0) :
    r.remaining = 0 := by
  obtain ⟨n, hn⟩ := h
  have := hn.remaining
  omega

/-- Some bits were taken, and the others are ahead. -/
theorem From.offset_add_remaining (h : From start r) :
    r.offset + r.remaining = start.offset + start.remaining := by
  obtain ⟨n, hn⟩ := h
  have hoffset := hn.offset
  have hremaining := hn.remaining
  omega

/-- The bits ahead are those of the start without the ones taken since. -/
theorem From.ahead_eq (h : From start r) (order : BitOrder) :
    r.ahead order = (start.ahead order).drop (r.offset - start.offset) := by
  obtain ⟨n, hn⟩ := h
  rw [hn.ahead, hn.offset, Nat.add_sub_cancel_left]

/-- Where an operation that succeeds takes bits. -/
theorem keeps_from {α : Type} {m : ReadM α}
    (h : ∀ r x r', r.Sound → m r = .ok x r' → ∃ n, Consumes n r r') : Keeps (From start) m := by
  intro r x r' hr hrun
  obtain ⟨n, hn⟩ := h r x r' hr.sound hrun
  exact hr.consumes hn

/-! ## Operations that may fail -/

/-- Nothing is left to pull. -/
theorem pull_of_empty (h : From start r) (hbytes : r.unfetched = []) :
    ∃ r', From start r' ∧ (pull r = .ok none r' ∨ ∃ e, pull r = .error e r') := by
  obtain ⟨source, hsource, hfailure, hpull⟩ := pull_of_spent hbytes
  have hkept : none.toList ++ source.bytes = r.unfetched := by rw [hsource, hbytes]; rfl
  refine ⟨_, h.takes ((Takes.refl h.sound).withBytes hkept hfailure), ?_⟩
  rw [hpull]
  cases r.source.failure with
  | none => exact .inl rfl
  | some message => exact .inr ⟨_, rfl⟩

/-- A bit is taken where one is left, and otherwise the reader stays where it is. -/
theorem from_nextBit (order : BitOrder) : Retains (From start) (nextBit order) := by
  intro r hr
  rcases Nat.eq_zero_or_pos r.remaining with hzero | hpos
  · rw [remaining_eq] at hzero
    have hused : ¬ r.used < 8 := by
      simp only [buffered] at hzero
      omega
    have hbytes : r.unfetched = [] := List.length_eq_zero_iff.mp (by omega)
    obtain ⟨r', hr', hpull⟩ := pull_of_empty hr hbytes
    simp only [nextBit, bind_of_ok (get_apply r), hused, if_false]
    rcases hpull with hpull | ⟨e, hpull⟩
    · rw [bind_of_ok hpull]
      exact hr'
    · rw [bind_of_error hpull]
      exact hr'
  · obtain ⟨b, r', hnext, htakes, -⟩ := nextBit_of_pos hr.sound hpos order
    rw [hnext]
    exact hr.takes htakes

theorem from_takeBits (order : BitOrder) (width count : Nat) :
    Retains (From start) (takeBits order width count) := by
  induction count with
  | zero => exact Retains.pure _
  | succ count ih =>
    refine (from_nextBit order).bind fun b => ?_
    cases b with
    | none => exact Retains.throw _
    | some b => exact ih.bind fun _ => Retains.pure _

/-- The bits of a number are taken one by one, also where they run out. -/
theorem from_readBits (width : Nat) (order : BitOrder) :
    Retains (From start) (readBits width order) := by
  unfold readBits
  split
  · exact Retains.throw _
  · exact (from_takeBits order width width).bind fun bits =>
      Retains.bind (Retains.modify fun r hr => hr.takes ((Takes.refl hr.sound).counting _))
        fun _ => Retains.pure _

theorem from_readByte (order : BitOrder) : Retains (From start) (readByte order) := by
  refine Retains.get_bind fun r hr => ?_
  by_cases hused : r.used < 8
  · rw [if_pos hused]
    exact (from_readBits 8 order).bind (fun _ => Retains.pure _) r hr
  · rw [if_neg hused]
    cases hbytes : r.unfetched with
    | nil =>
      obtain ⟨r', hr', hpull⟩ := pull_of_empty hr hbytes
      rcases hpull with hpull | ⟨e, hpull⟩
      · rw [bind_of_ok hpull]
        exact hr'
      · rw [bind_of_error hpull]
        exact hr'
    | cons b bs =>
      obtain ⟨source, hpull, rfl, hfailure⟩ := pull_of_cons hbytes
      rw [bind_of_ok hpull]
      exact hr.takes ((takes_whole hr.sound hused hbytes hfailure).counting (r.bitCount + 8))

theorem from_hasByte : Retains (From start) hasByte := by
  intro r hr
  cases hbytes : r.unfetched with
  | nil =>
    obtain ⟨source, hsource, hfailure, hlook⟩ := hasByte_of_nil hbytes
    have hkept : none.toList ++ source.bytes = r.unfetched := by rw [hsource, hbytes]; rfl
    rw [hlook]
    cases r.source.failure <;> exact hr.takes ((Takes.refl hr.sound).withBytes hkept hfailure)
  | cons b bs =>
    obtain ⟨source, lookahead, hlook, hkept, hfailure⟩ := hasByte_of_cons hbytes
    rw [hlook]
    exact hr.takes ((Takes.refl hr.sound).withBytes hkept hfailure)

theorem from_isExhausted : Retains (From start) isExhausted := by
  refine Retains.get_bind fun r hr => ?_
  split
  · exact hr
  · exact from_hasByte.bind (fun _ => Retains.pure _) r hr

/-- Whatever a custom type asks for, and whatever it makes of the answers, it goes forward. -/
theorem from_run (order : BitOrder) (p : ReadProgram) : Retains (From start) (p.run order) := by
  induction p with
  | done result => exact Retains.settle result
  | bits width next ih => exact (from_readBits _ order).outcome.bind ih
  | byte next ih => exact (from_readByte order).outcome.bind ih
  | exhausted next ih => exact from_isExhausted.outcome.bind ih
  | measured next ih => exact Retains.get_bind fun r hr => ih r.remaining r hr

end Reader

end RecordLayout
