import RecordLayout.Proofs.Bits.Shortened
import RecordLayout.Proofs.Simulation

/-!
# Streams that start again

A reset leaves a reader at the front of the bytes that it has not fetched. What it does from there
on is what a new reader does that has only these bytes. The two keep their bytes in different
places, and a byte in the lookahead of one may be in the source of the other; the bytes fetched in
front of the reset count in one of them alone; and of the byte that was left by the reset nothing is
seen.
-/

namespace RecordLayout.Reader

/-- The second reader is where the first one is, but has fetched this many bytes in front. -/
structure Restarted (front : Nat) (r r' : Reader) : Prop where
  unfetched : r'.unfetched = r.unfetched
  failure : r'.source.failure = r.source.failure
  used : r'.used = r.used
  current : r.used < 8 → r'.current = r.current
  byteCount : r'.byteCount = r.byteCount
  fetched : r'.fetched = front + r.fetched

/-- An operation does the same where the other reader has fetched bytes in front. -/
abbrev Restarts {α : Type} (front : Nat) (m : ReadM α) : Prop :=
  Foretells (fun _ => False) (Restarted front) m

variable {front : Nat} {r r' : Reader}

theorem Restarted.buffered (h : Restarted front r r') : r'.buffered = r.buffered := by
  rw [Reader.buffered, h.used, Reader.buffered]

theorem Restarted.remaining (h : Restarted front r r') : r'.remaining = r.remaining := by
  rw [remaining_eq, remaining_eq, h.unfetched, h.buffered]

/-- Where the readers have their bytes makes no difference. -/
theorem Restarted.moved (h : Restarted front r r') {source source' : Source}
    {lookahead lookahead' : Option UInt8}
    (hbytes : lookahead'.toList ++ source'.bytes = lookahead.toList ++ source.bytes)
    (hfailure : source.failure = r.source.failure)
    (hfailure' : source'.failure = r'.source.failure) :
    Restarted front (r.withBytes source lookahead) (r'.withBytes source' lookahead') where
  unfetched := hbytes
  failure := hfailure'.trans (h.failure.trans hfailure.symm)
  used := h.used
  current := h.current
  byteCount := h.byteCount
  fetched := h.fetched

/-! ## Single operations -/

/-- The next byte is the same, from the lookahead or from the source. -/
theorem restarts_pull : Restarts front pull := by
  intro r r' h
  cases hbytes : r.unfetched with
  | nil =>
    obtain ⟨source, hsource, hfailure, hpull⟩ := pull_of_spent hbytes
    obtain ⟨source', hsource', hfailure', hpull'⟩ := pull_of_spent (h.unfetched.trans hbytes)
    rw [h.failure] at hpull'
    rw [hpull, hpull']
    cases r.source.failure with
    | none => exact ⟨_, rfl, h.moved (by rw [hsource, hsource']) hfailure hfailure'⟩
    | some message => exact .inr ⟨_, rfl⟩
  | cons b bs =>
    obtain ⟨source, hpull, hsource, hfailure⟩ := pull_of_cons hbytes
    obtain ⟨source', hpull', hsource', hfailure'⟩ := pull_of_cons (h.unfetched.trans hbytes)
    rw [hpull]
    exact ⟨_, hpull', h.moved (by rw [hsource, hsource']) hfailure hfailure'⟩

theorem restarts_nextBit (order : BitOrder) : Restarts front (nextBit order) := by
  refine .get_bind fun r r' h => ?_
  rw [h.used]
  by_cases hused : r.used < 8
  · simp only [hused, if_true, h.current hused]
    exact ⟨_, rfl, h.unfetched, h.failure, rfl, fun _ => rfl, h.byteCount, h.fetched⟩
  · simp only [hused, if_false]
    refine restarts_pull.bind (fun found => ?_) r r' h
    cases found with
    | none => exact .pure _
    | some b =>
      refine Foretells.bind (.modify fun s s' hs => ?_) fun _ => .pure _
      exact ⟨hs.unfetched, hs.failure, rfl, fun _ => rfl, congrArg (· + 1) hs.byteCount,
        congrArg (· + 1) hs.fetched⟩

/-- What a run serves and how it fails depends on the bytes to come. -/
theorem restarts_readRun (count : Nat) (order : BitOrder) :
    Restarts front (readRun count order) := by
  intro r r' h
  by_cases hle : count ≤ r.unfetched.length
  · have hrun : readRun count order r = .ok ((r.unfetched.take count).map order.logical)
        (r.pastRun count) := readRun_eq_ok_iff.mpr ⟨hle, rfl, rfl⟩
    have hrun' : readRun count order r' = .ok ((r.unfetched.take count).map order.logical)
        (r'.pastRun count) := by
      rw [← h.unfetched] at hle ⊢
      exact readRun_eq_ok_iff.mpr ⟨hle, rfl, rfl⟩
    rw [hrun]
    refine ⟨_, hrun', ?_, h.failure, h.used, h.current, congrArg (· + count) h.byteCount, ?_⟩
    · rw [(run_eq r' count).2, (run_eq r count).2, h.unfetched]
    · show r'.fetched + count = front + (r.fetched + count)
      rw [h.fetched, Nat.add_assoc]
  · have hshort : (r.unfetched.take count).length ≠ count := by
      rw [List.length_take]
      omega
    have hfound := (run_eq r count).1
    have hfound' := (run_eq r' count).1
    simp only [lookedAt] at hfound hfound'
    simp only [readRun]
    rw [hfound, hfound', h.unfetched, h.failure, if_neg hshort, if_neg hshort]
    cases r.source.failure with
    | none => exact .inr ⟨_, rfl⟩
    | some message => exact .inr ⟨_, rfl⟩

/-- Every operation of a reader is made of parts that do the same in both. -/
theorem restarts_parts : Parts fun m => Restarts front m where
  pure := .pure
  throw := .throw
  bind := .bind
  position hg h := by
    refine .get_bind fun r r' hr => ?_
    rw [hg r' r hr.used hr.byteCount]
    exact h r r r' hr
  nextBit := restarts_nextBit
  wholeByte order := by
    refine restarts_pull.bind fun found => ?_
    cases found with
    | none => exact .throw _
    | some b =>
      refine Foretells.bind (.modify fun s s' hs => ?_) fun _ => .pure _
      exact ⟨hs.unfetched, hs.failure, hs.used, hs.current, congrArg (· + 1) hs.byteCount,
        congrArg (· + 1) hs.fetched⟩
  run := restarts_readRun
  counted n := .modify fun _ _ hs => ⟨hs.unfetched, hs.failure, hs.used, hs.current, hs.byteCount,
    hs.fetched⟩
  leaveByte := .modify fun _ _ hs => ⟨hs.unfetched, hs.failure, rfl, fun h => absurd h (by simp),
    hs.byteCount, hs.fetched⟩
  reset := .modify fun _ _ hs => ⟨hs.unfetched, hs.failure, rfl, fun h => absurd h (by simp), rfl,
    hs.fetched⟩

/-! ## Looking for another byte -/

/-- A look ahead finds the same byte where it is. -/
theorem restarts_hasByte : Restarts front hasByte := by
  intro r r' h
  cases hbytes : r.unfetched with
  | nil =>
    obtain ⟨source, hsource, hfailure, hlook⟩ := hasByte_of_nil hbytes
    obtain ⟨source', hsource', hfailure', hlook'⟩ := hasByte_of_nil (h.unfetched.trans hbytes)
    rw [h.failure] at hlook'
    rw [hlook, hlook']
    cases r.source.failure with
    | none => exact ⟨_, rfl, h.moved (by rw [hsource, hsource']) hfailure hfailure'⟩
    | some message => exact .inr ⟨_, rfl⟩
  | cons b bs =>
    obtain ⟨source, lookahead, hlook, hsource, hfailure⟩ := hasByte_of_cons hbytes
    obtain ⟨source', lookahead', hlook', hsource', hfailure'⟩ :=
      hasByte_of_cons (h.unfetched.trans hbytes)
    rw [hlook]
    exact ⟨_, hlook', h.moved (by rw [hsource, hsource', h.unfetched]) hfailure hfailure'⟩

theorem restarts_atEndFor (width : Nat) (order : BitOrder) :
    Restarts front (atEndFor width order) := by
  refine restarts_hasByte.bind fun found => ?_
  split
  · exact .pure _
  · have hbody (buffered used : Nat) (current : UInt8) : Restarts front
        (if width ≤ buffered then pure false
          else if 0 < buffered ∧ (order.logical current).toNat / 2 ^ used ≠ 0 then
            throw (.paddingNotZero buffered)
          else pure true) := by
      split
      · exact .pure _
      · split
        · exact .throw _
        · exact .pure _
    refine .get_bind fun r r' h => ?_
    rw [h.buffered, h.used]
    by_cases hused : r.used < 8
    · rw [h.current hused]
      exact hbody r.buffered r.used r.current r r' h
    · have hbuffered : r.buffered = 0 := by unfold Reader.buffered; omega
      have hnone := hbody 0 r.used r.current r r' h
      simp only [hbuffered, Nat.lt_irrefl, false_and, if_false] at hnone ⊢
      exact hnone

/-- A reset is as good as a new reader of the bytes that are not fetched. -/
theorem restarted_reset {bytes : List UInt8} (hbytes : r.unfetched = bytes)
    (hends : r.source.failure = none) :
    ∃ r', Reader.reset r = .ok () r' ∧ Restarted r.fetched (ofSource (.ofBytes bytes)) r' := by
  refine ⟨_, rfl, ?_, hends, rfl, fun hused => ?_, rfl, rfl⟩
  · exact hbytes.trans (Source.bytes_ofBytes bytes).symm
  · exact absurd hused (Nat.lt_irrefl 8)

end RecordLayout.Reader
