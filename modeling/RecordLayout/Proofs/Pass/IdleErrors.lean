import RecordLayout.Proofs.Bits.Cutoff
import RecordLayout.Proofs.Pass.Loops
import RecordLayout.Proofs.Throwing

/-!
# Who says that an element takes nothing

Two errors say that an element of an unbounded array takes nothing. No operation of a reader has
them, nor does a pass over declarations without an unbounded array, unless a custom type makes one
up. So it is the loop that says so, and it says so of its own elements.
-/

namespace RecordLayout

/-- The error says that an element takes nothing. -/
def Error.IsIdle : Error → Prop
  | .idleStructure _ | .idleElement _ => True
  | _ => False

theorem Error.IsIdle.kind {e : Error} (h : e.IsIdle) : e.kind = .structural := by
  cases e <;> first | rfl | cases h

/-- The operation never says that an element takes nothing. -/
def Spares {σ α : Type} (m : EStateM Error σ α) : Prop :=
  ∀ s e s', m s = .error e s' → ¬ e.IsIdle

/-- An operation whose errors are of another sort. -/
theorem Throws.spares {σ α : Type} {sort : Error → Prop} {m : EStateM Error σ α}
    (h : Throws sort m) (hsort : ∀ e, sort e → ¬ e.IsIdle) : Spares m :=
  h.mono hsort

namespace Spares

variable {σ α β : Type}

theorem pure (a : α) : Spares (Pure.pure a : EStateM Error σ α) := Throws.pure a

theorem throw {e : Error} (h : ¬ e.IsIdle) :
    Spares (MonadExcept.throw e : EStateM Error σ α) := Throws.throw h

theorem bind {m : EStateM Error σ α} {g : α → EStateM Error σ β} (hm : Spares m)
    (hg : ∀ a, Spares (g a)) : Spares (m >>= g) := Throws.bind hm hg

theorem map {m : EStateM Error σ α} (g : α → β) (hm : Spares m) : Spares (g <$> m) :=
  Throws.map g hm

theorem modify (u : σ → σ) : Spares (modify u : EStateM Error σ PUnit) := Throws.modify u

theorem set (s : σ) : Spares (set s : EStateM Error σ PUnit) := Throws.set s

theorem get_bind {g : σ → EStateM Error σ α} (h : ∀ s, Spares (g s)) : Spares (get >>= g) :=
  Throws.get_bind h

theorem settle {x : Except Error α} (h : ∀ e, x = .error e → ¬ e.IsIdle) :
    Spares (settle x : EStateM Error σ α) := Throws.settle h

end Spares

/-! ## Readers -/

namespace Reader

theorem spares_pull : Spares pull := by
  intro r e r' h
  unfold pull at h
  split at h
  · cases h
  · split at h <;> cases h
    exact id

/-- Where no bit is left, this is an answer and no error. -/
theorem spares_nextBit (order : BitOrder) : Spares (nextBit order) := by
  refine .get_bind fun r => ?_
  split
  · exact (Spares.set _).bind fun _ => .pure _
  · refine spares_pull.bind fun found => ?_
    cases found with
    | none => exact .pure _
    | some b => exact (Spares.modify _).bind fun _ => .pure _

theorem spares_takeBits (order : BitOrder) (width count : Nat) :
    Spares (takeBits order width count) := by
  induction count with
  | zero => exact .pure _
  | succ count ih =>
    refine (spares_nextBit order).bind fun b => ?_
    cases b with
    | none => exact .throw id
    | some b => exact ih.bind fun _ => .pure _

theorem spares_readBits (width : Nat) (order : BitOrder) : Spares (readBits width order) := by
  unfold readBits
  split
  · exact .throw id
  · exact (spares_takeBits order width width).bind fun _ =>
      (Spares.modify _).bind fun _ => .pure _

theorem spares_readByte (order : BitOrder) : Spares (readByte order) := by
  refine .get_bind fun r => ?_
  split
  · exact (spares_readBits 8 order).bind fun _ => .pure _
  · refine spares_pull.bind fun found => ?_
    cases found with
    | none => exact .throw id
    | some b => exact (Spares.modify _).bind fun _ => .pure _

theorem spares_readEach (order : BitOrder) (count : Nat) : Spares (readEach order count) := by
  induction count with
  | zero => exact .pure _
  | succ count ih => exact (spares_readByte order).bind fun _ => ih.bind fun _ => .pure _

theorem spares_readBytes (count : Nat) (order : BitOrder) : Spares (readBytes count order) := by
  refine .get_bind fun r => ?_
  split
  · exact spares_readEach order count
  · intro r e r' h hidle
    have hkind : e.kind = lossKind r.source.failure := breaksOff_of_readRun h
    rw [hidle.kind] at hkind
    cases hfailure : r.source.failure <;> rw [hfailure] at hkind <;> cases hkind

/-- A text may break off or be ill-formed. -/
theorem spares_readText (order : BitOrder) : Spares (readText order) := by
  have hlength : ∀ leading, Spares (readTextLength leading order) := by
    intro leading
    unfold readTextLength
    split
    · exact .pure _
    · split
      · refine (spares_readEach order _).bind fun found => ?_
        dsimp only
        split
        · exact .throw id
        · exact .pure _
      · exact .throw id
  refine (spares_readByte order).bind fun leading => ?_
  split
  · exact .pure _
  · refine (hlength leading).bind fun length => (spares_readBytes length order).bind fun found => ?_
    split
    · exact .pure _
    · exact .throw id

theorem spares_skipBytes (count : Nat) : Spares (skipBytes count) := by
  induction count with
  | zero => exact .pure _
  | succ count ih => exact (spares_readByte .lsb0).bind fun _ => ih

theorem spares_align (n : Nat) : Spares (align n) :=
  (Spares.modify _).bind fun _ => .get_bind fun _ => spares_skipBytes _

theorem spares_hasByte : Spares hasByte := by
  refine .get_bind fun r => ?_
  split
  · exact .pure _
  · exact spares_pull.bind fun _ => (Spares.modify _).bind fun _ => .pure _

theorem spares_isExhausted : Spares isExhausted := by
  refine .get_bind fun r => ?_
  split
  · exact .pure _
  · exact spares_hasByte.bind fun _ => .pure _

/-- The look for the end of an array may find bits that are not zero, and this is another error. -/
theorem spares_atEndFor (width : Nat) (order : BitOrder) : Spares (atEndFor width order) := by
  refine spares_hasByte.bind fun more => ?_
  split
  · exact .pure _
  · refine .get_bind fun r => ?_
    split
    · exact .pure _
    · split
      · exact .throw id
      · exact .pure _

end Reader

/-! ## Passes -/

theorem Error.IsOfParameter.not_isIdle {e : Error} (h : e.IsOfParameter) : ¬ e.IsIdle := by
  cases e <;> first | exact id | cases h

/-- A parameter fails for reasons of its own. -/
theorem spares_parameter {σ α : Type} {m : EStateM Error σ α} (h : Throws Error.IsOfParameter m) :
    Spares m :=
  h.spares fun _ => Error.IsOfParameter.not_isIdle

namespace PassM

variable {δ α : Type}

theorem spares_onStream {m : EStateM Error δ α} (h : Spares m) : Spares (onStream m) :=
  throws_onStream h

theorem spares_register (info : Option FieldInfo) (v : Value) :
    Spares (register info v : PassM δ Unit) :=
  throws_register info v

end PassM

/-- The custom type never says that an element takes nothing: that is not its affair. -/
def CustomUse.Modest (ctx : PassContext) (use : CustomUse) : Prop :=
  ∀ field, Spares ((use.handler.read field).run ctx.options.bitOrder)

namespace Decode

variable {α : Type} {ctx : PassContext} {head : Header}

/-- An element never does, unless its custom type does. -/
theorem spares_element {type : ElementType} (width : Nat)
    (hmodest : ∀ use extra, type = .custom use extra → use.Modest ctx) :
    Spares (element ctx head width type) := by
  cases type with
  | fixed type =>
    have hnumber : Spares (Reader.readNumber type.size head.order ctx.options.bitOrder) :=
      (Reader.spares_readEach _ _).bind fun _ => .pure _
    refine (PassM.spares_onStream hnumber).bind fun n => .settle fun e he => ?_
    cases type with
    | bool =>
      simp only [FixedType.ofNumber] at he
      split at he
      · cases he
      · split at he <;> cases he
        exact id
    | _ => cases he
  | bit a => exact (PassM.spares_onStream (Reader.spares_readBits _ _)).bind fun _ => .pure _
  | text => exact (PassM.spares_onStream (Reader.spares_readText _)).map _
  | custom use extra =>
    exact (spares_parameter (PassM.throws_customField ctx head use extra)).bind fun field =>
      PassM.spares_onStream (hmodest use extra rfl field)

theorem spares_times {element : PassM Reader (Step α)} (h : Spares element) (count : Nat) :
    Spares (times element count) := by
  induction count with
  | zero => exact .pure _
  | succ count ih =>
    refine h.bind fun step => ?_
    cases step with
    | last x => exact .pure _
    | next x => exact ih.bind fun _ => .pure _

/-- An array that is not unbounded has a number of elements. -/
theorem spares_counted {length : Length} (hbounded : length ≠ .unbounded)
    {g : Option Nat → PassM Reader α} (hg : ∀ n, Spares (g (some n))) :
    Spares (PassM.arrayCount ctx length >>= g) := by
  cases length with
  | unbounded => exact absurd rfl hbounded
  | const n => exact hg n.toNat
  | computed e =>
    intro s error s' h
    cases hcount : PassM.arrayCount ctx (.computed e) s with
    | error e' t =>
      rw [bind_of_error hcount] at h
      cases h
      exact spares_parameter (PassM.throws_arrayCount ctx _) _ _ _ hcount
    | ok count t =>
      rw [bind_of_ok hcount] at h
      obtain ⟨v, s₁, -, hsome⟩ := bind_eq_ok.mp hcount
      obtain ⟨n, -, rfl⟩ := map_eq_ok.mp hsome
      exact hg n _ _ _ h

theorem spares_value {type : ElementType} {length : Option Length}
    (hbounded : length ≠ some .unbounded)
    (hmodest : ∀ use extra, type = .custom use extra → use.Modest ctx) :
    Spares (value ctx head type length) := by
  refine (spares_parameter (PassM.throws_bitWidth ctx type)).bind fun width => ?_
  cases length with
  | none => exact spares_element width hmodest
  | some length =>
    refine spares_counted (fun h => hbounded (congrArg some h)) fun n => ?_
    split
    · exact (PassM.spares_onStream (Reader.spares_readBytes n _)).map _
    · exact (spares_times ((spares_element width hmodest).map _) n).bind fun _ => .pure _

/-- A declaration of bounded length never says it. -/
theorem spares_item {decl : Decl} (hbounded : decl.length ≠ some .unbounded)
    (hmodest : ∀ use, decl.customUse = some use → use.Modest ctx) :
    Spares (item ctx head decl) := by
  cases decl with
  | value type length =>
    have htype : ∀ use extra, type = .custom use extra → use.Modest ctx := by
      rintro use extra rfl
      exact hmodest use rfl
    refine (spares_value hbounded htype).bind fun v => ?_
    dsimp only
    split
    · exact (PassM.spares_register _ _).bind fun _ => .pure _
    · exact (Spares.pure _).bind fun _ => .pure _
  | computed a =>
    exact (spares_parameter (PassM.throws_amount ctx a)).bind fun n =>
      (PassM.spares_register _ _).bind fun _ => .pure _
  | align a =>
    exact (spares_parameter (PassM.throws_alignment ctx a)).bind fun n =>
      (PassM.spares_onStream (Reader.spares_align n)).bind fun _ => .pure _
  | skip a =>
    exact (spares_parameter (PassM.throws_skipCount ctx a)).bind fun n =>
      (PassM.spares_onStream (Reader.spares_skipBytes n)).bind fun _ => .pure _
  | reset => exact (PassM.spares_onStream (Spares.modify _)).bind fun _ => .pure _

/-- The look for the end of a lenient pass does not say it either. -/
theorem spares_endsBefore (holdsValue : Bool) : Spares (endsBefore ctx holdsValue) := by
  unfold endsBefore
  split
  · exact PassM.spares_onStream Reader.spares_isExhausted
  · exact .pure _

/-- Without an unbounded array there is nobody to say that an element takes nothing. -/
theorem spares_fields {l : Layout} (hbounded : l.endless = false)
    (hmodest : ∀ use ∈ l.customUses, use.Modest ctx) : Spares (fields ctx l) := by
  induction l with
  | done => exact .pure _
  | item head decl rest ih =>
    simp only [Layout.customUses, List.forall_mem_append] at hmodest
    simp only [Layout.endless, Bool.or_eq_false_iff, beq_eq_false_iff_ne] at hbounded
    refine (spares_endsBefore _).bind fun ends => ?_
    split
    · exact .pure _
    · have hitem : Spares (item ctx head decl) :=
        spares_item hbounded.1 fun use huse => hmodest.1 use (Option.mem_toList.mpr huse)
      exact hitem.bind fun _ => (ih hbounded.2 hmodest.2).bind fun _ => .pure _
  | group head length body closing rest ihbody ihrest =>
    simp only [Layout.customUses, List.forall_mem_append] at hmodest
    simp only [Layout.endless, Bool.or_eq_false_iff, beq_eq_false_iff_ne] at hbounded
    have hbody := ihbody hbounded.1.2 hmodest.1
    have hgroup : Spares (group ctx head length body.certainBits (fields ctx body)) := by
      cases length with
      | none => exact hbody.bind fun _ => .pure _
      | some length =>
        refine spares_counted (fun h => hbounded.1.1 (congrArg some h)) fun n => ?_
        exact (spares_times (hbody.map _) n).bind fun _ => .pure _
    refine (spares_endsBefore _).bind fun ends => ?_
    split
    · exact .pure _
    · refine hgroup.bind fun found => ?_
      rcases found with ⟨v, flow⟩
      cases flow with
      | stop => exact .pure _
      | goOn => exact (ihrest hbounded.2 hmodest.2).bind fun _ => .pure _

end Decode

end RecordLayout
