import RecordLayout.Pass.Encode
import RecordLayout.Proofs.Throwing

/-!
# Who says that an array was found

One error says that a declaration got a structure array in the place of a value. No operation of a
writer has it, no expression and no value that is written, unless a custom type makes it up. So it is
a look at the next item that says so.
-/

namespace RecordLayout

/-- The error does not say that a structure array was found in the place of a value. -/
def Error.IsOther : Error → Prop
  | .foundArray _ => False
  | _ => True

/-- The operation never says that an array was found. -/
abbrev NeverFinds {σ α : Type} (m : EStateM Error σ α) : Prop := Throws Error.IsOther m

/-- The custom type never says that an array was found: that is not its affair. -/
def CustomUse.MindsItsOwn (ctx : PassContext) (use : CustomUse) : Prop :=
  ∀ field v, NeverFinds ((use.handler.write field v).run ctx.options.bitOrder)

/-! ## Writers -/

namespace Writer

/-- A sink that is full says so, and not what it was given. -/
theorem neverFinds_emit (b : UInt8) : NeverFinds (emit b) := by
  intro w e w' h
  unfold emit at h
  split at h <;> cases h
  trivial

theorem neverFinds_flushBits : NeverFinds flushBits := by
  refine .get_bind fun w => ?_
  split
  · exact (Throws.set _).bind fun _ => neverFinds_emit _
  · exact .pure _

theorem neverFinds_putBit (order : BitOrder) (b : Bool) : NeverFinds (putBit order b) := by
  refine .get_bind fun w => ?_
  dsimp only
  split
  · exact .set _
  · exact (Throws.set _).bind fun _ => neverFinds_emit _

theorem neverFinds_putBits (order : BitOrder) (bits : List Bool) :
    NeverFinds (putBits order bits) := by
  induction bits with
  | nil => exact .pure _
  | cons b bits ih => exact (neverFinds_putBit order b).bind fun _ => ih

/-- A width that is too large is the only error of the bits themselves. -/
theorem neverFinds_writeBits (value : UInt64) (width : Nat) (order : BitOrder) :
    NeverFinds (writeBits value width order) := by
  have hbits : NeverFinds (putBits order (Bits.ofNat value.toNat width) >>= fun _ =>
      modify fun w : Writer => { w with bitCount := w.bitCount + width }) :=
    (neverFinds_putBits order _).bind fun _ => .modify _
  unfold writeBits
  split
  · exact (Throws.throw trivial).bind fun _ => hbits
  · exact hbits

theorem neverFinds_writeByte (b : UInt8) (order : BitOrder) : NeverFinds (writeByte b order) := by
  refine .get_bind fun w => ?_
  split
  · exact (neverFinds_emit _).bind fun _ => .modify _
  · exact neverFinds_writeBits _ _ _

theorem neverFinds_writeBytes (bs : List UInt8) (order : BitOrder) :
    NeverFinds (writeBytes bs order) := by
  induction bs with
  | nil => exact .pure _
  | cons b bs ih => exact (neverFinds_writeByte b order).bind fun _ => ih

/-- The only error of a text itself is a length that is too large. -/
theorem neverFinds_writeText (text : Option String) (order : BitOrder) :
    NeverFinds (writeText text order) := by
  cases text with
  | none => exact neverFinds_writeByte _ _
  | some text =>
    have hbytes : ∀ length body : List UInt8, NeverFinds
        (writeBytes length order >>= fun _ => writeBytes body order) := fun length body =>
      (neverFinds_writeBytes length order).bind fun _ => neverFinds_writeBytes body order
    unfold writeText
    dsimp only
    split
    · exact (Throws.throw trivial).bind fun _ => hbytes _ _
    · exact hbytes _ _

theorem neverFinds_skipBytes (count : Nat) : NeverFinds (skipBytes count) := by
  induction count with
  | zero => exact .pure _
  | succ count ih => exact (neverFinds_writeByte _ _).bind fun _ => ih

theorem neverFinds_align (n : Nat) : NeverFinds (align n) := by
  have hleave : NeverFinds leaveByte := by
    refine .get_bind fun w => ?_
    split
    · exact (Throws.set _).bind fun _ => neverFinds_flushBits
    · exact .pure _
  exact hleave.bind fun _ => .get_bind fun w => neverFinds_skipBytes _

theorem neverFinds_finish : NeverFinds finish := by
  refine neverFinds_flushBits.bind fun _ => .get_bind fun w => ?_
  split
  · exact .throw trivial
  · exact .pure _

end Writer

/-! ## Parameters -/

theorem Error.IsOfParameter.isOther {e : Error} (h : e.IsOfParameter) : e.IsOther := by
  cases e <;> trivial

/-- A parameter fails for reasons of its own. -/
theorem neverFinds_parameter {σ α : Type} {m : EStateM Error σ α}
    (h : Throws Error.IsOfParameter m) : NeverFinds m :=
  h.mono fun _ => Error.IsOfParameter.isOther

/-! ## Values -/

namespace Encode

variable {ctx : PassContext} {head : Header}

theorem neverFinds_onWriter {α : Type} {m : WriteM α} (h : NeverFinds m) :
    NeverFinds (onWriter m) := by
  intro s e s' hrun
  unfold onWriter PassM.onStream at hrun
  dsimp only at hrun
  cases hm : m s.stream.writer with
  | ok x w =>
    rw [hm] at hrun
    cases hrun
  | error e' w =>
    rw [hm] at hrun
    cases hrun
    exact h _ _ _ hm

/-- A value of each type is written by bytes, bits or a text. -/
theorem neverFinds_put (width : Nat) (v : Value) (type : ElementType) :
    NeverFinds (put ctx head width v type) := by
  cases type with
  | fixed type => exact Writer.neverFinds_writeBytes _ _
  | bit _ => exact Writer.neverFinds_writeBits _ _ _
  | text => exact Writer.neverFinds_writeText _ _
  | custom _ _ => exact .pure _

theorem neverFinds_checkCount (declaration : String) (count : Option Nat) (supplied : Nat) :
    NeverFinds (checkCount declaration count supplied) := by
  unfold checkCount
  split
  · split
    · exact .pure _
    · exact .throw trivial
  · exact .pure _

variable {type : ElementType}
  (hcustom : ∀ use extra, type = .custom use extra → use.MindsItsOwn ctx)
include hcustom

/-- An element never finds an array, unless its custom type says so. -/
theorem neverFinds_element (width : Nat) (v : Value) : NeverFinds (element ctx head width type v) := by
  unfold element
  split
  · exact (neverFinds_parameter (PassM.throws_customField ctx head _ _)).bind fun field =>
      (neverFinds_onWriter (hcustom _ _ rfl field v)).bind fun _ => .pure _
  · split
    · exact .throw trivial
    · exact (neverFinds_onWriter (neverFinds_put _ _ _)).bind fun _ => .pure _

theorem neverFinds_elements (width : Nat) (items : List Value) :
    NeverFinds (elements ctx head width type items) := by
  induction items with
  | nil => exact .pure _
  | cons v items ih => exact (neverFinds_element hcustom width v).bind fun _ => ih

/-- The write of a value does not say that an array was found. -/
theorem neverFinds_value (length : Option Length) (v : Value) :
    NeverFinds (value ctx head type length v) := by
  refine (neverFinds_parameter (PassM.throws_bitWidth ctx type)).bind fun width => ?_
  cases length with
  | none =>
    refine (neverFinds_element hcustom width v).bind fun written => ?_
    split
    · exact PassM.throws_register _ _
    · exact .pure _
  | some length =>
    refine (neverFinds_parameter (PassM.throws_arrayCount ctx length)).bind fun count => ?_
    dsimp only
    split
    · exact (neverFinds_checkCount _ _ _).bind fun _ =>
        neverFinds_onWriter (Writer.neverFinds_writeBytes _ _)
    · exact (neverFinds_checkCount _ _ _).bind fun _ => neverFinds_elements hcustom width _
    · exact .throw trivial

end Encode

end RecordLayout
