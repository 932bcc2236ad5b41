import RecordLayout.Layout.Listing
import RecordLayout.Pass.Decode
import RecordLayout.Proofs.Bits.Cutoff
import RecordLayout.Proofs.Layout.Shape
import RecordLayout.Proofs.Pass.Simulation

/-!
# Read passes over streams that break off

A pass over a stream that breaks off takes the course of the pass over the whole stream. It looks for
the end of the stream, which may be elsewhere in the whole one, only in a lenient pass or for an
unbounded array; if the source fails, these looks fail as well, and if no byte is missing, they find
the same.
-/

namespace RecordLayout.Decode

variable {α : Type} {failure : Option String} {more : List UInt8} {ctx : PassContext}
  {head : Header}

/-- The first pass is the second one over a stream that breaks off. -/
abbrev Cut (failure : Option String) (more : List UInt8) :
    PassState Reader → PassState Reader → Prop :=
  PassState.Along (Reader.Cut failure more)

/-- The operation takes the same course over the whole stream. -/
abbrev Survives (failure : Option String) (more : List UInt8) (m : PassM Reader α) : Prop :=
  Foretells (BreaksOff failure) (Cut failure more) m

theorem count_cut (r r' : Reader) (h : Reader.Cut failure more r r') :
    ByteCounter.count r' = ByteCounter.count r := h.byteCount

/-- The induction is on the bits that remain, which are a fixed number less than those of the whole
stream. -/
theorem survives_toEnd (hlooks : Reader.LooksAlike failure more) {element : PassM Reader (Step α)}
    (h : Survives failure more element) (least : Nat) (order : BitOrder) (idle : Error) :
    Survives failure more (toEnd least order idle element) := by
  intro s s' hs
  induction hremaining : s.stream.remaining using Nat.strongRecOn generalizing s s' with
  | ind n ih =>
  have hleft {t t' : PassState Reader} (ht : Cut failure more t t') :
      t'.stream.remaining = t.stream.remaining + 8 * more.length := ht.1.remaining
  have hlook : Foretells (BreaksOff failure) (Reader.Cut failure more)
      (Reader.atEndFor least order) := Reader.foretells_atEndFor hlooks least order
  have hat := PassM.foretells_onStream hlook s s' hs
  rw [toEnd, toEnd]
  cases hend : PassM.onStream (Reader.atEndFor least order) s with
  | error e s₁ =>
    rw [hend] at hat
    rcases hat with hlost | ⟨t', hend'⟩
    · exact Or.inl hlost
    · rw [hend']
      exact Or.inr ⟨t', rfl⟩
  | ok atEnd s₁ =>
    rw [hend] at hat
    obtain ⟨s₁', hend', hs₁⟩ := hat
    rw [hend']
    cases atEnd with
    | true => exact ⟨s₁', rfl, hs₁⟩
    | false =>
      have helement := h s₁ s₁' hs₁
      dsimp only
      cases hfound : element s₁ with
      | error e s₂ =>
        rw [hfound] at helement
        rcases helement with hlost | ⟨t', hfound'⟩
        · exact Or.inl hlost
        · rw [hfound']
          exact Or.inr ⟨t', rfl⟩
      | ok step s₂ =>
        rw [hfound] at helement
        obtain ⟨s₂', hfound', hs₂⟩ := helement
        rw [hfound']
        cases step with
        | last x => exact ⟨s₂', rfl, hs₂⟩
        | next x =>
          dsimp only
          -- Both remainders lack the same missing bytes, so both loops go on or neither does.
          rw [hleft hs₂, hleft hs]
          by_cases hless : s₂.stream.remaining < s.stream.remaining
          · have hlater := ih _ (hremaining ▸ hless) s₂ s₂' hs₂ rfl
            rw [if_pos hless, if_pos (by omega)]
            cases hrest : toEnd least order idle element s₂ with
            | ok found s₃ =>
              rw [hrest] at hlater
              obtain ⟨s₃', hrest', hs₃⟩ := hlater
              rw [hrest']
              exact ⟨s₃', rfl, hs₃⟩
            | error e s₃ =>
              rw [hrest] at hlater
              rcases hlater with hlost | ⟨t', hrest'⟩
              · exact Or.inl hlost
              · rw [hrest']
                exact Or.inr ⟨t', rfl⟩
          · rw [if_neg hless, if_neg (by omega)]
            exact Or.inr ⟨s₂', rfl⟩

/-- The looks for the end of the stream have to be alike. -/
theorem survives_parts :
    Parts ctx (Reader.LooksAlike failure more) fun m => Survives failure more m where
  toParts := PassM.foretells_parts count_cut
  number _ _ := PassM.foretells_onStream (Reader.foretells_readNumber _ _ _)
  bits _ := PassM.foretells_onStream (Reader.foretells_readBits _ _)
  text := PassM.foretells_onStream (Reader.foretells_readText _)
  byte := PassM.foretells_onStream (Reader.foretells_readByte _)
  bytes n := PassM.foretells_onStream (Reader.foretells_readBytes n _)
  align n := PassM.foretells_onStream (Reader.foretells_align n)
  skip n := PassM.foretells_onStream (Reader.foretells_skipBytes n)
  reset := PassM.foretells_onStream Reader.foretells_reset
  isExhausted hlook := PassM.foretells_onStream (Reader.foretells_isExhausted hlook)
  toEnd hlook _ _ helement least idle := survives_toEnd hlook helement least _ idle

/-- Reading a record from a stream that breaks off and from the whole stream. Where the pass looks for
the end, the source has to fail. -/
theorem survives_record {l : Layout} (hcustom : l.customUses = [])
    (hlenient : ctx.options.lenient = true → failure.isSome = true)
    (hlook : l.endless = true → failure.isSome = true) :
    Survives failure more (record ctx l) :=
  survives_parts.record (by rw [hcustom]; exact nofun) (fun h => .inl (hlenient h))
    fun h => .inl (hlook h)

end RecordLayout.Decode
