import RecordLayout.Layout.Listing
import RecordLayout.Pass.Encode
import RecordLayout.Proofs.Pass.Simulation

/-!
# Write passes over related feeds

A write pass is built from few operations of the writer and from looks at the items. If each of them
takes the same course on two related feeds, so does the whole pass.
-/

namespace RecordLayout.Encode

variable {α : Type} {lost : Error → Prop} {R : Feed → Feed → Prop} {ctx : PassContext}
  {head : Header}

/-! ## Values -/

/-- Values of built-in types are written alike to the related feeds. -/
structure WritesAlike (lost : Error → Prop) (R : Feed → Feed → Prop) (ctx : PassContext) : Prop where
  count : ∀ f f', R f f' → ByteCounter.count f' = ByteCounter.count f
  put : ∀ head width v type,
    Foretells lost (PassState.Along R) (onWriter (put ctx head width v type))
  bytes : ∀ bs,
    Foretells lost (PassState.Along R) (onWriter (Writer.writeBytes bs ctx.options.bitOrder))

/-- The program of a custom type does alike to the related feeds. -/
def CustomAlike (lost : Error → Prop) (R : Feed → Feed → Prop) (ctx : PassContext)
    (use : CustomUse) : Prop :=
  ∀ field v, Foretells lost (PassState.Along R)
    (onWriter ((use.handler.write field v).run ctx.options.bitOrder))

theorem WritesAlike.valueParts (h : WritesAlike lost R ctx) :
    ValueParts ctx fun m => Foretells lost (PassState.Along R) m where
  toParts := PassM.foretells_parts h.count
  put := h.put
  bytes := h.bytes

/-! ## Records -/

/-- Whatever a pass does to the related feeds is alike, and they have the same items. -/
structure FeedsAlike (lost : Error → Prop) (R : Feed → Feed → Prop) (ctx : PassContext) : Prop
    extends WritesAlike lost R ctx where
  align : ∀ n, Foretells lost (PassState.Along R) (onWriter (Writer.align n))
  skip : ∀ n, Foretells lost (PassState.Along R) (onWriter (Writer.skipBytes n))
  reset : Foretells lost (PassState.Along R) (onWriter Writer.reset)
  items : ∀ f f', R f f' → f'.items = f.items
  leave : ∀ f f' items, R f f' → R { f with items := items } { f' with items := items }

namespace FeedsAlike

variable (h : FeedsAlike lost R ctx)
include h

theorem remaining : Foretells lost (PassState.Along R) remaining := by
  intro s s' hs
  exact ⟨s', congrArg (EStateM.Result.ok · s') (h.items _ _ hs.1), hs⟩

/-- The induction is on the items that are left. -/
theorem whileItems {body : PassM Feed Flow} (hbody : Foretells lost (PassState.Along R) body)
    (idle : Error) : Foretells lost (PassState.Along R) (whileItems idle body) := by
  intro s s' hs
  induction hlength : s.stream.items.length using Nat.strongRecOn generalizing s s' with
  | ind n ih =>
  rw [Encode.whileItems, Encode.whileItems, h.items _ _ hs.1]
  by_cases hempty : s.stream.items.isEmpty = true
  · rw [if_pos hempty, if_pos hempty]
    exact ⟨s', rfl, hs⟩
  · rw [if_neg hempty, if_neg hempty]
    have hfirst := hbody s s' hs
    cases hrun : body s with
    | error e s₁ =>
      rw [hrun] at hfirst
      rcases hfirst with hlost | ⟨t', hrun'⟩
      · exact .inl hlost
      · rw [hrun']
        exact .inr ⟨t', rfl⟩
    | ok flow s₁ =>
      rw [hrun] at hfirst
      obtain ⟨s₁', hrun', hs₁⟩ := hfirst
      rw [hrun']
      cases flow with
      | stop => exact ⟨s₁', rfl, hs₁⟩
      | goOn =>
        dsimp only
        rw [h.items _ _ hs₁.1]
        by_cases hless : s₁.stream.items.length < s.stream.items.length
        · rw [if_pos hless, if_pos hless]
          exact ih _ (hlength ▸ hless) s₁ s₁' hs₁ rfl
        · rw [if_neg hless, if_neg hless]
          exact .inr ⟨s₁', rfl⟩

theorem parts : Parts ctx fun m => Foretells lost (PassState.Along R) m where
  toValueParts := h.toWritesAlike.valueParts
  align := h.align
  skip := h.skip
  reset := h.reset
  remaining := h.remaining
  leave items := .modify fun _ _ hs => ⟨h.leave _ _ items hs.1, hs.2⟩
  whileItems := h.whileItems

/-- A pass over related feeds takes the same course. -/
theorem fields {l : Layout} (hcustom : ∀ use ∈ l.customUses, CustomAlike lost R ctx use) :
    Foretells lost (PassState.Along R) (fields ctx l) := h.parts.fields hcustom

end FeedsAlike

end RecordLayout.Encode
