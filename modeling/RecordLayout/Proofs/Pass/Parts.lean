import RecordLayout.Layout.Listing
import RecordLayout.Pass.Decode
import RecordLayout.Pass.Encode
import RecordLayout.Proofs.Layout.Shape
import RecordLayout.Proofs.Pass.Parameters

/-!
# The parts of a pass

A pass is made of few parts: operations of the stream, looks at the items of a write, expressions,
and values that are remembered. A property that the parts have, and that operations in a row and
repetitions have if their parts do, the whole pass has. What is proved of a pass by going through it
is proved here once, for any such property.
-/

namespace RecordLayout

/-- What every pass is made of has the property. -/
structure PassM.Parts {δ : Type} [ByteCounter δ] (ctx : PassContext)
    (P : {α : Type} → PassM δ α → Prop) : Prop where
  pure : ∀ {α : Type} (a : α), P (Pure.pure a)
  throw : ∀ {α : Type} (e : Error), P (MonadExcept.throw e : PassM δ α)
  /-- What follows an operation matters only for the results that the operation can give. -/
  bind_of_ok : ∀ {α β : Type} {m : PassM δ α} {g : α → PassM δ β}, P m →
    (∀ a s t, m s = .ok a t → P (g a)) → P (m >>= g)
  eval : ∀ e, P (PassM.eval ctx e)
  register : ∀ info v, P (PassM.register info v)

namespace PassM.Parts

variable {δ α β : Type} [ByteCounter δ] {ctx : PassContext} {P : {α : Type} → PassM δ α → Prop}
  (h : Parts ctx P)
include h

theorem bind {m : PassM δ α} {g : α → PassM δ β} (hm : P m) (hg : ∀ a, P (g a)) : P (m >>= g) :=
  h.bind_of_ok hm fun a _ _ _ => hg a

theorem map {m : PassM δ α} (g : α → β) (hm : P m) : P (g <$> m) := by
  rw [map_eq_pure_bind]
  exact h.bind hm fun _ => h.pure _

theorem settle (x : Except Error α) : P (RecordLayout.settle x : PassM δ α) := by
  cases x with
  | ok a => exact h.pure a
  | error e => exact h.throw e

theorem amount (a : Amount) : P (PassM.amount ctx a) := by
  cases a with
  | const n => exact h.pure _
  | computed e => exact h.eval e

theorem nonNegative (quantity : Quantity) (value : Int64) :
    P (PassM.nonNegative ctx quantity value) := by
  unfold PassM.nonNegative
  split
  · exact h.pure _
  · split
    · exact h.pure _
    · exact h.throw _

theorem arrayCount (l : Length) : P (PassM.arrayCount ctx l) := by
  cases l with
  | const n => exact h.pure _
  | computed e => exact h.bind (h.eval e) fun v => h.map some (h.nonNegative _ v)
  | unbounded => exact h.pure _

theorem bitWidth (type : ElementType) : P (PassM.bitWidth ctx type) := by
  cases type with
  | bit width =>
    refine h.bind (h.amount width) fun w => ?_
    split
    · exact h.pure _
    · exact h.throw _
  | fixed _ | text | custom _ _ => exact h.pure _

theorem alignment (a : Amount) : P (PassM.alignment ctx a) := by
  refine h.bind (h.amount a) fun n => ?_
  split
  · exact h.bind (h.throw _) fun _ => h.pure _
  · exact h.pure _

theorem skipCount (a : Amount) : P (PassM.skipCount ctx a) :=
  h.bind (h.amount a) fun n => h.nonNegative _ n

/-- A custom type is given its parameter and the fields around it. -/
theorem customField (head : Header) (use : CustomUse) (extra : Option Amount) :
    P (PassM.customField ctx head use extra) := by
  cases extra with
  | none => exact h.bind (h.pure _) fun _ => h.pure _
  | some a => exact h.bind (h.map some (h.amount a)) fun _ => h.pure _

end PassM.Parts

/-! ## Reading -/

namespace Decode

/-- What a read pass is made of has the property; where the pass looks for the end of the stream,
this may take a condition. -/
structure Parts (ctx : PassContext) (looks : Prop) (P : {α : Type} → PassM Reader α → Prop) : Prop
    extends PassM.Parts ctx P where
  number : ∀ size order, P (PassM.onStream (Reader.readNumber size order ctx.options.bitOrder))
  bits : ∀ width, P (PassM.onStream (Reader.readBits width ctx.options.bitOrder))
  text : P (PassM.onStream (Reader.readText ctx.options.bitOrder))
  byte : P (PassM.onStream (Reader.readByte ctx.options.bitOrder))
  bytes : ∀ n, P (PassM.onStream (Reader.readBytes n ctx.options.bitOrder))
  align : ∀ n, P (PassM.onStream (Reader.align n))
  skip : ∀ n, P (PassM.onStream (Reader.skipBytes n))
  reset : P (PassM.onStream Reader.reset)
  isExhausted : looks → P (PassM.onStream Reader.isExhausted)
  toEnd : looks → ∀ {α : Type} {element : PassM Reader (Step α)}, P element →
    ∀ least idle, P (toEnd least ctx.options.bitOrder idle element)

/-- The read program of a custom type has the property. -/
def CustomPart (ctx : PassContext) (P : {α : Type} → PassM Reader α → Prop) (use : CustomUse) :
    Prop :=
  ∀ field, P (PassM.onStream ((use.handler.read field).run ctx.options.bitOrder))

namespace Parts

variable {α : Type} {ctx : PassContext} {looks : Prop} {P : {α : Type} → PassM Reader α → Prop}
  (h : Parts ctx looks P) {head : Header}
include h

/-- Elements that are counted, by induction over their number. -/
theorem times {element : PassM Reader (Step α)} (helement : P element) (count : Nat) :
    P (times element count) := by
  induction count with
  | zero => exact h.pure _
  | succ count ih =>
    refine h.bind helement fun step => ?_
    cases step with
    | last x => exact h.pure _
    | next x => exact h.bind ih fun _ => h.pure _

/-- Elements of an array look for the end only if there is no number of them. -/
theorem elements {element : PassM Reader (Step α)} (helement : P element) (least : Nat)
    (idle : Error) {count : Option Nat} (hlook : count = none → looks) :
    P (elements ctx least idle element count) := by
  cases count with
  | some n => exact h.times helement n
  | none => exact h.toEnd (hlook rfl) helement least idle

theorem element (width : Nat) {type : ElementType}
    (hcustom : ∀ use extra, type = .custom use extra → CustomPart ctx P use) :
    P (element ctx head width type) := by
  cases type with
  | fixed type => exact h.bind (h.number _ _) fun n => h.settle _
  | bit _ => exact h.bind (h.bits width) fun n => h.pure _
  | text => exact h.map _ h.text
  | custom use extra =>
    exact h.bind (h.customField head use extra) fun field => hcustom use extra rfl field

theorem byteArray (type : ElementType) {count : Option Nat} (hlook : count = none → looks) :
    P (byteArray ctx type count) := by
  cases count with
  | some n => exact h.bytes n
  | none => exact h.map _ (h.toEnd (hlook rfl) (h.map _ h.byte) _ _)

/-- The length of an array is looked for at the end of the stream only if the array is unbounded. -/
theorem counted {β : Type} {length : Length} {g : Option Nat → PassM Reader β}
    (hlook : length = .unbounded → looks) (hg : ∀ count, (count = none → looks) → P (g count)) :
    P (PassM.arrayCount ctx length >>= g) := by
  refine h.bind_of_ok (h.arrayCount length) fun count s t hcount => hg count ?_
  rintro rfl
  exact hlook (PassContext.eq_unbounded_of_count
    ((PassM.computes_arrayCount ctx s length).eq_ok hcount).1)

theorem value {type : ElementType}
    (hcustom : ∀ use extra, type = .custom use extra → CustomPart ctx P use) {length : Option Length}
    (hlook : length = some .unbounded → looks) : P (value ctx head type length) := by
  refine h.bind (h.bitWidth type) fun width => ?_
  cases length with
  | none => exact h.element width hcustom
  | some length =>
    refine h.counted (fun hlength => hlook (congrArg some hlength)) fun count hlook => ?_
    split
    · exact h.map _ (h.byteArray type hlook)
    · exact h.bind (h.elements (h.map _ (h.element width hcustom)) _ _ hlook) fun _ => h.pure _

/-- A declaration that is no structure. -/
theorem item {decl : Decl} (hcustom : ∀ use, decl.customUse = some use → CustomPart ctx P use)
    (hlook : decl.length = some .unbounded → looks) : P (item ctx head decl) := by
  cases decl with
  | value type length =>
    have htype : ∀ use extra, type = .custom use extra → CustomPart ctx P use := by
      rintro use extra rfl
      exact hcustom use rfl
    refine h.bind (h.value htype hlook) fun v => ?_
    dsimp only
    split
    · exact h.bind (h.register _ _) fun _ => h.pure _
    · exact h.bind (h.pure _) fun _ => h.pure _
  | computed amount =>
    exact h.bind (h.amount amount) fun n => h.bind (h.register _ _) fun _ => h.pure _
  | align a => exact h.bind (h.alignment a) fun n => h.bind (h.align n) fun _ => h.pure _
  | skip a => exact h.bind (h.skipCount a) fun n => h.bind (h.skip n) fun _ => h.pure _
  | reset => exact h.bind h.reset fun _ => h.pure _

/-- Only a lenient pass looks for the end in front of a declaration. -/
theorem endsBefore (hlenient : ctx.options.lenient = true → looks) (holdsValue : Bool) :
    P (endsBefore ctx holdsValue) := by
  unfold Decode.endsBefore
  split
  · rename_i hends
    rw [Bool.and_eq_true] at hends
    exact h.isExhausted (hlenient hends.1)
  · exact h.pure _

/-- A structure, or an array of them, if its body has the property. -/
theorem group {body : PassM Reader (List Field × Flow)} (hbody : P body)
    {length : Option Length} (hlook : length = some .unbounded → looks) (certain : Nat) :
    P (group ctx head length certain body) := by
  cases length with
  | none => exact h.bind hbody fun _ => h.pure _
  | some length =>
    refine h.counted (fun hlength => hlook (congrArg some hlength)) fun count hlook => ?_
    exact h.bind (h.elements (h.map _ hbody) _ _ hlook) fun _ => h.pure _

/-- A whole layout, by induction over it: no more is needed than its custom types have. -/
theorem fields {l : Layout} (hcustom : ∀ use ∈ l.customUses, CustomPart ctx P use)
    (hlenient : ctx.options.lenient = true → looks) (hlook : l.endless = true → looks) :
    P (fields ctx l) := by
  induction l with
  | done => exact h.pure _
  | item head decl rest ih =>
    simp only [Layout.customUses, List.forall_mem_append] at hcustom
    simp only [Layout.endless, Bool.or_eq_true, beq_iff_eq] at hlook
    refine h.bind (h.endsBefore hlenient _) fun ends => ?_
    split
    · exact h.pure _
    · refine h.bind (h.item (fun use huse => ?_) fun hlength => hlook (.inl hlength)) fun _ =>
        h.bind (ih hcustom.2 fun hrest => hlook (.inr hrest)) fun _ => h.pure _
      exact hcustom.1 use (Option.mem_toList.mpr huse)
  | group head length body closing rest ihbody ihrest =>
    simp only [Layout.customUses, List.forall_mem_append] at hcustom
    simp only [Layout.endless, Bool.or_eq_true, beq_iff_eq] at hlook
    refine h.bind (h.endsBefore hlenient _) fun ends => ?_
    split
    · exact h.pure _
    · have hbody := ihbody hcustom.1 fun hbody => hlook (.inl (.inr hbody))
      refine h.bind (h.group hbody (fun hlength => hlook (.inl (.inl hlength))) _) fun found => ?_
      rcases found with ⟨v, flow⟩
      cases flow with
      | stop => exact h.pure _
      | goOn => exact h.bind (ihrest hcustom.2 fun hrest => hlook (.inr hrest)) fun _ => h.pure _

theorem record {l : Layout} (hcustom : ∀ use ∈ l.customUses, CustomPart ctx P use)
    (hlenient : ctx.options.lenient = true → looks) (hlook : l.endless = true → looks) :
    P (record ctx l) :=
  h.bind (h.fields hcustom hlenient hlook) fun _ => h.pure _

end Parts

end Decode

/-! ## Writing -/

namespace Encode

/-- What the write of a value is made of has the property. -/
structure ValueParts (ctx : PassContext) (P : {α : Type} → PassM Feed α → Prop) : Prop
    extends PassM.Parts ctx P where
  put : ∀ head width v type, P (onWriter (put ctx head width v type))
  bytes : ∀ bs, P (onWriter (Writer.writeBytes bs ctx.options.bitOrder))

/-- What a write pass is made of has the property. -/
structure Parts (ctx : PassContext) (P : {α : Type} → PassM Feed α → Prop) : Prop
    extends ValueParts ctx P where
  align : ∀ n, P (onWriter (Writer.align n))
  skip : ∀ n, P (onWriter (Writer.skipBytes n))
  reset : P (onWriter Writer.reset)
  remaining : P remaining
  leave : ∀ items, P (leave items)
  whileItems : ∀ {body : PassM Feed Flow}, P body → ∀ idle, P (whileItems idle body)

/-- The write program of a custom type has the property. -/
def CustomPart (ctx : PassContext) (P : {α : Type} → PassM Feed α → Prop) (use : CustomUse) :
    Prop :=
  ∀ field v, P (onWriter ((use.handler.write field v).run ctx.options.bitOrder))

namespace ValueParts

variable {ctx : PassContext} {P : {α : Type} → PassM Feed α → Prop} (h : ValueParts ctx P)
  {head : Header} {type : ElementType}
include h

/-- A length that is checked against what was supplied. -/
theorem checkCount (declaration : String) (count : Option Nat) (supplied : Nat) :
    P (checkCount declaration count supplied) := by
  unfold Encode.checkCount
  split
  · split
    · exact h.pure _
    · exact h.throw _
  · exact h.pure _

variable (hcustom : ∀ use extra, type = .custom use extra → CustomPart ctx P use)
include hcustom

/-- An element of each type is put as it is. -/
theorem element (width : Nat) (v : Value) : P (element ctx head width type v) := by
  unfold Encode.element
  split
  · refine h.bind (h.customField head _ _) fun field => ?_
    exact h.bind (hcustom _ _ rfl field v) fun _ => h.pure _
  · split
    · exact h.throw _
    · exact h.bind (h.put _ _ _ _) fun _ => h.pure _

theorem elements (width : Nat) (items : List Value) : P (elements ctx head width type items) := by
  induction items with
  | nil => exact h.pure _
  | cons v items ih => exact h.bind (h.element hcustom width v) fun _ => ih

/-- A value or an array of values that is written. -/
theorem value (length : Option Length) (v : Value) : P (value ctx head type length v) := by
  refine h.bind (h.bitWidth type) fun width => ?_
  cases length with
  | none =>
    refine h.bind (h.element hcustom width v) fun written => ?_
    split
    · exact h.register head.info _
    · exact h.pure _
  | some length =>
    refine h.bind (h.arrayCount length) fun count => ?_
    dsimp only
    split
    · exact h.bind (h.checkCount _ _ _) fun _ => h.bytes _
    · exact h.bind (h.checkCount _ _ _) fun _ => h.elements hcustom width _
    · exact h.throw _

end ValueParts

namespace Parts

variable {ctx : PassContext} {P : {α : Type} → PassM Feed α → Prop} (h : Parts ctx P)
  {head : Header}
include h

theorem nextValue (declaration : String) : P (nextValue declaration) := by
  refine h.bind h.remaining fun items => ?_
  split
  · exact h.bind (h.leave _) fun _ => h.pure _
  · exact h.bind (h.leave _) fun _ => h.throw _
  · exact h.throw _

theorem toldCount : P toldCount := by
  refine h.bind h.remaining fun items => ?_
  split
  · exact h.bind (h.leave _) fun _ => h.pure _
  · exact h.pure _

theorem endsBefore (holdsValue : Bool) : P (endsBefore ctx holdsValue) :=
  h.bind h.remaining fun _ => h.pure _

/-- A declaration that takes its item, if it has one. -/
theorem item {decl : Decl} (hcustom : ∀ use, decl.customUse = some use → CustomPart ctx P use) :
    P (item ctx head decl) := by
  cases decl with
  | value type length =>
    have htype : ∀ use extra, type = .custom use extra → CustomPart ctx P use := by
      rintro use extra rfl
      exact hcustom use rfl
    exact h.bind (h.nextValue _) fun v => h.toValueParts.value htype length v
  | computed amount => exact h.bind (h.amount amount) fun n => h.register _ _
  | align a => exact h.bind (h.alignment a) fun n => h.align n
  | skip a => exact h.bind (h.skipCount a) fun n => h.skip n
  | reset => exact h.reset

theorem times {body : PassM Feed Flow} (hbody : P body) (count : Nat) : P (times body count) := by
  induction count with
  | zero => exact h.pure _
  | succ count ih =>
    refine h.bind hbody fun flow => ?_
    split
    · exact h.pure _
    · exact ih

/-- A structure, or an array of them, whose number of elements may be an item. -/
theorem group {body : PassM Feed Flow} (hbody : P body) (length : Option Length) :
    P (group ctx head length body) := by
  cases length with
  | none => exact hbody
  | some length =>
    refine h.bind (h.arrayCount length) fun count => h.bind h.toldCount fun told => ?_
    split
    · split
      · exact h.times hbody _
      · split
        · exact h.bind (h.times hbody _) fun _ => h.pure _
        · exact h.throw _
    · exact h.times hbody _
    · exact h.times hbody _
    · exact h.whileItems hbody _

/-- A whole layout that is written, by induction over it. -/
theorem fields {l : Layout} (hcustom : ∀ use ∈ l.customUses, CustomPart ctx P use) :
    P (fields ctx l) := by
  induction l with
  | done => exact h.pure _
  | item head decl rest ih =>
    simp only [Layout.customUses, List.forall_mem_append] at hcustom
    refine h.bind (h.endsBefore _) fun ends => ?_
    split
    · exact h.pure _
    · exact h.bind (h.item fun use huse => hcustom.1 use (Option.mem_toList.mpr huse)) fun _ =>
        ih hcustom.2
  | group head length body closing rest ihbody ihrest =>
    simp only [Layout.customUses, List.forall_mem_append] at hcustom
    refine h.bind (h.endsBefore _) fun ends => ?_
    split
    · exact h.pure _
    · refine h.bind (h.group (ihbody hcustom.1) length) fun flow => ?_
      split
      · exact h.pure _
      · exact ihrest hcustom.2

/-- A whole record, if the end of the writer has the property too. -/
theorem record {l : Layout} (hcustom : ∀ use ∈ l.customUses, CustomPart ctx P use)
    (hfinish : P (onWriter Writer.finish)) : P (record ctx l) := by
  refine h.bind (h.fields hcustom) fun _ => h.bind h.remaining fun items => ?_
  split
  · exact hfinish
  · exact h.throw _

end Parts

end Encode

end RecordLayout
