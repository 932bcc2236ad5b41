import RecordLayout.Pass.Decode
import RecordLayout.Pass.Encode
import RecordLayout.Proofs.Bits.MirrorWriting

/-!
# Mirrored passes

A pass in one bit order over a stream and the pass in the other over the mirrored stream take the
same course: every expression has the same value, since the streams count the same bytes, and every
value that is read or written is the same.
-/

namespace RecordLayout

/-- The context with another bit order. -/
def PassContext.inOrder (ctx : PassContext) (order : BitOrder) : PassContext :=
  { ctx with options := { ctx.options with bitOrder := order } }

/-- The state with its stream changed. -/
def PassState.over {δ : Type} (f : δ → δ) (s : PassState δ) : PassState δ :=
  { s with stream := f s.stream }

namespace PassM

variable {δ α : Type} {f : δ → δ} {ctx : PassContext} {order order' : BitOrder}

/-- An operation of the stream that is mirrored is mirrored in a pass. -/
theorem mirrors_onStream {m m' : EStateM Error δ α} (h : Mirrors f m m') :
    Mirrors (PassState.over f) (onStream m) (onStream m') := by
  intro s
  have hs := h s.stream
  simp only [onStream, PassState.over, hs]
  cases m s.stream <;> rfl

theorem mirrors_register (info : Option FieldInfo) (v : Value) :
    Mirrors (PassState.over f) (register info v : PassM δ Unit) (register info v) := by
  unfold register
  split
  · exact Mirrors.modify fun _ => rfl
  · exact Mirrors.pure _

theorem mirrors_nonNegative (quantity : Quantity) (v : Int64) :
    Mirrors (PassState.over f) (nonNegative (ctx.inOrder order) quantity v : PassM δ Nat)
      (nonNegative (ctx.inOrder order') quantity v) := by
  unfold nonNegative
  split
  · exact Mirrors.pure _
  · have hclamp : (ctx.inOrder order').options.clampNegative =
        (ctx.inOrder order).options.clampNegative := rfl
    rw [hclamp]
    split
    · exact Mirrors.pure _
    · exact Mirrors.throw _

variable [ByteCounter δ]
  (hcount : ∀ stream : δ, ByteCounter.count (f stream) = ByteCounter.count stream)
include hcount

/-- An expression has the same value: it sees the same numbers and as many bytes. -/
theorem mirrors_eval (e : Expr) :
    Mirrors (PassState.over f) (eval (ctx.inOrder order) e : PassM δ Int64)
      (eval (ctx.inOrder order') e) := by
  intro s
  have henv : env (ctx.inOrder order') (s.over f) = env (ctx.inOrder order) s := by
    unfold env PassState.over
    rw [hcount]
    rfl
  simp only [eval, henv]
  cases e.eval (env (ctx.inOrder order) s) <;> rfl

theorem mirrors_amount (a : Amount) :
    Mirrors (PassState.over f) (amount (ctx.inOrder order) a : PassM δ Int64)
      (amount (ctx.inOrder order') a) := by
  cases a with
  | const n => exact Mirrors.pure _
  | computed e => exact mirrors_eval hcount e

theorem mirrors_arrayCount (l : Length) :
    Mirrors (PassState.over f) (arrayCount (ctx.inOrder order) l : PassM δ (Option Nat))
      (arrayCount (ctx.inOrder order') l) := by
  cases l with
  | const n => exact Mirrors.pure _
  | computed e => exact (mirrors_eval hcount e).bind fun v => (mirrors_nonNegative _ v).map some
  | unbounded => exact Mirrors.pure _

theorem mirrors_bitWidth (type : ElementType) :
    Mirrors (PassState.over f) (bitWidth (ctx.inOrder order) type : PassM δ Nat)
      (bitWidth (ctx.inOrder order') type) := by
  cases type with
  | bit width =>
    refine (mirrors_amount hcount width).bind fun w => ?_
    split
    · exact Mirrors.pure _
    · exact Mirrors.throw _
  | fixed _ | text | custom _ _ => exact Mirrors.pure _

theorem mirrors_alignment (a : Amount) :
    Mirrors (PassState.over f) (alignment (ctx.inOrder order) a : PassM δ Nat)
      (alignment (ctx.inOrder order') a) := by
  refine (mirrors_amount hcount a).bind fun n => ?_
  split
  · exact Mirrors.throw _
  · exact Mirrors.pure _

theorem mirrors_skipCount (a : Amount) :
    Mirrors (PassState.over f) (skipCount (ctx.inOrder order) a : PassM δ Nat)
      (skipCount (ctx.inOrder order') a) :=
  (mirrors_amount hcount a).bind fun n => mirrors_nonNegative _ n

theorem mirrors_customField (head : Header) (use : CustomUse) (extra : Option Amount) :
    Mirrors (PassState.over f) (customField (ctx.inOrder order) head use extra : PassM δ CustomField)
      (customField (ctx.inOrder order') head use extra) := by
  cases extra with
  | none => exact Mirrors.bind (Mirrors.pure _) fun _ => Mirrors.pure _
  | some a => exact Mirrors.bind ((mirrors_amount hcount a).map some) fun _ => Mirrors.pure _

end PassM

/-! ## Reading -/

namespace Decode

variable {α : Type} {ctx : PassContext} {head : Header}

/-- The state of a read pass over the mirrored bytes. -/
abbrev mirror : PassState Reader → PassState Reader := PassState.over Reader.mirror

theorem count_mirror (r : Reader) : ByteCounter.count r.mirror = ByteCounter.count r := rfl

/-- Elements that are counted, by induction over their number. -/
theorem mirrors_times {element element' : PassM Reader (Step α)}
    (h : Mirrors mirror element element') (count : Nat) :
    Mirrors mirror (times element count) (times element' count) := by
  induction count with
  | zero => exact Mirrors.pure _
  | succ count ih =>
    refine h.bind fun step => ?_
    cases step with
    | last x => exact Mirrors.pure _
    | next x => exact ih.bind fun _ => Mirrors.pure _

/-- The induction is on the bits that remain, which are as many in the mirrored stream. -/
theorem mirrors_toEnd {element element' : PassM Reader (Step α)}
    (h : Mirrors mirror element element') (least : Nat) (idle : Error) :
    Mirrors mirror (toEnd least .msb0 idle element) (toEnd least .lsb0 idle element') := by
  intro s
  induction hremaining : s.stream.remaining using Nat.strongRecOn generalizing s with
  | ind n ih =>
  have hat := PassM.mirrors_onStream (Reader.mirrors_atEndFor least) s
  have hs (s : PassState Reader) : (mirror s).stream.remaining = s.stream.remaining :=
    Reader.remaining_mirror _
  rw [toEnd, toEnd, hat]
  cases PassM.onStream (Reader.atEndFor least .msb0) s with
  | error e s₁ => rfl
  | ok atEnd s₁ =>
    cases atEnd with
    | true => rfl
    | false =>
      simp only [onState, h s₁]
      cases element s₁ with
      | error e s₂ => rfl
      | ok step s₂ =>
        cases step with
        | last x => rfl
        | next x =>
          simp only [hs]
          by_cases hless : s₂.stream.remaining < s.stream.remaining
          · rw [if_pos hless, if_pos hless, ih _ (hremaining ▸ hless) _ rfl]
            cases toEnd least .msb0 idle element s₂ <;> rfl
          · rw [if_neg hless, if_neg hless]

/-- Elements up to the end of the stream, where the mirrored reader has as many bits ahead. -/
theorem mirrors_elements {element element' : PassM Reader (Step α)}
    (h : Mirrors mirror element element') (least : Nat) (idle : Error) (count : Option Nat) :
    Mirrors mirror (elements (ctx.inOrder .msb0) least idle element count)
      (elements (ctx.inOrder .lsb0) least idle element' count) := by
  cases count with
  | some n => exact mirrors_times h n
  | none => exact mirrors_toEnd h least idle

theorem mirrors_element (width : Nat) (type : ElementType) :
    Mirrors mirror (element (ctx.inOrder .msb0) head width type)
      (element (ctx.inOrder .lsb0) head width type) := by
  cases type with
  | fixed type =>
    exact (PassM.mirrors_onStream (Reader.mirrors_readNumber _ _)).bind fun _ => Mirrors.settle _
  | bit _ =>
    exact (PassM.mirrors_onStream (Reader.mirrors_readBits _)).bind fun _ => Mirrors.pure _
  | text => exact (PassM.mirrors_onStream Reader.mirrors_readText).map _
  | custom use extra =>
    refine (PassM.mirrors_customField count_mirror head use extra).bind fun field => ?_
    exact PassM.mirrors_onStream (ReadProgram.mirrors_run _)

theorem mirrors_byteArray (type : ElementType) (count : Option Nat) :
    Mirrors mirror (byteArray (ctx.inOrder .msb0) type count)
      (byteArray (ctx.inOrder .lsb0) type count) := by
  cases count with
  | some n => exact PassM.mirrors_onStream (Reader.mirrors_readBytes n)
  | none =>
    exact (mirrors_toEnd ((PassM.mirrors_onStream Reader.mirrors_readByte).map _) _ _).map _

/-- A value is read alike, and so is an array of values. -/
theorem mirrors_value (type : ElementType) (length : Option Length) :
    Mirrors mirror (value (ctx.inOrder .msb0) head type length)
      (value (ctx.inOrder .lsb0) head type length) := by
  refine (PassM.mirrors_bitWidth count_mirror type).bind fun width => ?_
  cases length with
  | none => exact mirrors_element width type
  | some length =>
    refine (PassM.mirrors_arrayCount count_mirror length).bind fun count => ?_
    split
    · exact (mirrors_byteArray type count).map _
    · exact (mirrors_elements ((mirrors_element width type).map _) _ _ count).bind fun _ =>
        Mirrors.pure _

/-- A declaration is read alike, whatever its sort. -/
theorem mirrors_item (decl : Decl) :
    Mirrors mirror (item (ctx.inOrder .msb0) head decl) (item (ctx.inOrder .lsb0) head decl) := by
  cases decl with
  | value type length =>
    refine (mirrors_value type length).bind fun v => ?_
    dsimp only
    split
    · exact (PassM.mirrors_register _ _).bind fun _ => Mirrors.pure _
    · exact Mirrors.bind (Mirrors.pure _) fun _ => Mirrors.pure _
  | computed amount =>
    refine (PassM.mirrors_amount count_mirror amount).bind fun n => ?_
    exact (PassM.mirrors_register _ _).bind fun _ => Mirrors.pure _
  | align a =>
    refine (PassM.mirrors_alignment count_mirror a).bind fun n => ?_
    exact (PassM.mirrors_onStream (Reader.mirrors_align n)).bind fun _ => Mirrors.pure _
  | skip a =>
    refine (PassM.mirrors_skipCount count_mirror a).bind fun n => ?_
    exact (PassM.mirrors_onStream (Reader.mirrors_skipBytes n)).bind fun _ => Mirrors.pure _
  | reset => exact (PassM.mirrors_onStream Reader.mirrors_reset).bind fun _ => Mirrors.pure _

theorem mirrors_endsBefore (holdsValue : Bool) :
    Mirrors mirror (endsBefore (ctx.inOrder .msb0) holdsValue)
      (endsBefore (ctx.inOrder .lsb0) holdsValue) := by
  have hlenient : (ctx.inOrder .lsb0).options.lenient = (ctx.inOrder .msb0).options.lenient := rfl
  unfold endsBefore
  rw [hlenient]
  split
  · exact PassM.mirrors_onStream Reader.mirrors_isExhausted
  · exact Mirrors.pure _

theorem mirrors_group {body body' : PassM Reader (List Field × Flow)}
    (h : Mirrors mirror body body') (length : Option Length) (certain : Nat) :
    Mirrors mirror (group (ctx.inOrder .msb0) head length certain body)
      (group (ctx.inOrder .lsb0) head length certain body') := by
  cases length with
  | none => exact h.bind fun _ => Mirrors.pure _
  | some length =>
    refine (PassM.mirrors_arrayCount count_mirror length).bind fun count => ?_
    exact (mirrors_elements (h.map _) _ _ count).bind fun _ => Mirrors.pure _

/-- A whole layout is, by induction over it. -/
theorem mirrors_fields (l : Layout) :
    Mirrors mirror (fields (ctx.inOrder .msb0) l) (fields (ctx.inOrder .lsb0) l) := by
  induction l with
  | done => exact Mirrors.pure _
  | item head decl rest ih =>
    refine (mirrors_endsBefore _).bind fun ends => ?_
    split
    · exact Mirrors.pure _
    · exact (mirrors_item decl).bind fun _ => ih.bind fun _ => Mirrors.pure _
  | group head length body closing rest ihbody ihrest =>
    refine (mirrors_endsBefore _).bind fun ends => ?_
    split
    · exact Mirrors.pure _
    · refine (mirrors_group ihbody length _).bind fun found => ?_
      rcases found with ⟨v, flow⟩
      cases flow with
      | stop => exact Mirrors.pure _
      | goOn => exact ihrest.bind fun _ => Mirrors.pure _

/-- Reading a record in one bit order and reading the mirrored stream in the other. -/
theorem mirrors_record (ctx : PassContext) (l : Layout) :
    Mirrors mirror (record (ctx.inOrder .msb0) l) (record (ctx.inOrder .lsb0) l) :=
  (mirrors_fields l).bind fun _ => Mirrors.pure _

end Decode

/-! ## Writing -/

/-- The feed whose writer has written the mirrored bytes. -/
def Feed.mirror (feed : Feed) : Feed := { feed with writer := feed.writer.mirror }

namespace Encode

variable {α : Type} {ctx : PassContext} {head : Header}

/-- The state of a write pass that has written the mirrored bytes. -/
abbrev mirror : PassState Feed → PassState Feed := PassState.over Feed.mirror

theorem count_mirror (feed : Feed) : ByteCounter.count feed.mirror = ByteCounter.count feed := rfl

/-- An operation of the writer that is mirrored is mirrored in a pass, whose items stay the same. -/
theorem mirrors_onWriter {m m' : WriteM α} (h : Mirrors Writer.mirror m m') :
    Mirrors mirror (onWriter m) (onWriter m') := by
  apply PassM.mirrors_onStream
  intro feed
  have hwriter := h feed.writer
  simp only [Feed.mirror, hwriter]
  cases m feed.writer <;> rfl

theorem mirrors_remaining : Mirrors mirror remaining remaining := fun _ => rfl

theorem mirrors_leave (items : List Item) : Mirrors mirror (leave items) (leave items) :=
  fun _ => rfl

theorem mirrors_nextValue (declaration : String) :
    Mirrors mirror (nextValue declaration) (nextValue declaration) := by
  refine mirrors_remaining.bind fun items => ?_
  split
  · exact (mirrors_leave _).bind fun _ => Mirrors.pure _
  · exact (mirrors_leave _).bind fun _ => Mirrors.throw _
  · exact Mirrors.throw _

theorem mirrors_toldCount : Mirrors mirror toldCount toldCount := by
  refine mirrors_remaining.bind fun items => ?_
  split
  · exact (mirrors_leave _).bind fun _ => Mirrors.pure _
  · exact Mirrors.pure _

theorem mirrors_put (width : Nat) (v : Value) (type : ElementType) :
    Mirrors Writer.mirror (put (ctx.inOrder .msb0) head width v type)
      (put (ctx.inOrder .lsb0) head width v type) := by
  cases type with
  | fixed type => exact Writer.mirrors_writeNumber _ _ _
  | bit _ => exact Writer.mirrors_writeBits _ _
  | text => exact Writer.mirrors_writeText _
  | custom _ _ => exact Mirrors.pure _

theorem mirrors_element (width : Nat) (type : ElementType) (v : Value) :
    Mirrors mirror (element (ctx.inOrder .msb0) head width type v)
      (element (ctx.inOrder .lsb0) head width type v) := by
  unfold element
  split
  · refine (PassM.mirrors_customField count_mirror head _ _).bind fun field => ?_
    exact (mirrors_onWriter (WriteProgram.mirrors_run _)).bind fun _ => Mirrors.pure _
  · split
    · exact Mirrors.throw _
    · exact (mirrors_onWriter (mirrors_put _ _ _)).bind fun _ => Mirrors.pure _

theorem mirrors_elements (width : Nat) (type : ElementType) (items : List Value) :
    Mirrors mirror (elements (ctx.inOrder .msb0) head width type items)
      (elements (ctx.inOrder .lsb0) head width type items) := by
  induction items with
  | nil => exact Mirrors.pure _
  | cons v items ih => exact (mirrors_element width type v).bind fun _ => ih

theorem mirrors_checkCount (declaration : String) (count : Option Nat) (supplied : Nat) :
    Mirrors mirror (checkCount declaration count supplied)
      (checkCount declaration count supplied) := by
  unfold checkCount
  split
  · split
    · exact Mirrors.pure _
    · exact Mirrors.throw _
  · exact Mirrors.pure _

/-- A value or an array is written alike. -/
theorem mirrors_value (type : ElementType) (length : Option Length) (v : Value) :
    Mirrors mirror (value (ctx.inOrder .msb0) head type length v)
      (value (ctx.inOrder .lsb0) head type length v) := by
  refine (PassM.mirrors_bitWidth count_mirror type).bind fun width => ?_
  cases length with
  | none =>
    refine (mirrors_element width type v).bind fun written => ?_
    split
    · exact PassM.mirrors_register _ _
    · exact Mirrors.pure _
  | some length =>
    refine (PassM.mirrors_arrayCount count_mirror length).bind fun count => ?_
    dsimp only
    split
    · exact (mirrors_checkCount _ _ _).bind fun _ =>
        mirrors_onWriter (Writer.mirrors_writeBytes _)
    · exact (mirrors_checkCount _ _ _).bind fun _ => mirrors_elements width type _
    · exact Mirrors.throw _

/-- A declaration is written alike, whatever its sort. -/
theorem mirrors_item (decl : Decl) :
    Mirrors mirror (item (ctx.inOrder .msb0) head decl) (item (ctx.inOrder .lsb0) head decl) := by
  cases decl with
  | value type length => exact (mirrors_nextValue _).bind fun v => mirrors_value type length v
  | computed amount =>
    exact (PassM.mirrors_amount count_mirror amount).bind fun n => PassM.mirrors_register _ _
  | align a =>
    exact (PassM.mirrors_alignment count_mirror a).bind fun n =>
      mirrors_onWriter (Writer.mirrors_align n)
  | skip a =>
    exact (PassM.mirrors_skipCount count_mirror a).bind fun n =>
      mirrors_onWriter (Writer.mirrors_skipBytes n)
  | reset => exact mirrors_onWriter Writer.mirrors_reset

theorem mirrors_endsBefore (holdsValue : Bool) :
    Mirrors mirror (endsBefore (ctx.inOrder .msb0) holdsValue)
      (endsBefore (ctx.inOrder .lsb0) holdsValue) :=
  mirrors_remaining.bind fun _ => Mirrors.pure _

variable {body body' : PassM Feed Flow}

theorem mirrors_times (h : Mirrors mirror body body') (count : Nat) :
    Mirrors mirror (times body count) (times body' count) := by
  induction count with
  | zero => exact Mirrors.pure _
  | succ count ih =>
    refine h.bind fun flow => ?_
    cases flow with
    | stop => exact Mirrors.pure _
    | goOn => exact ih

/-- Structures up to the last item, by induction over the items that are left. -/
theorem mirrors_whileItems (h : Mirrors mirror body body') (idle : Error) :
    Mirrors mirror (whileItems idle body) (whileItems idle body') := by
  intro s
  induction hlength : s.stream.items.length using Nat.strongRecOn generalizing s with
  | ind n ih =>
  have hitems (s : PassState Feed) : (mirror s).stream.items = s.stream.items := rfl
  rw [whileItems, whileItems, hitems]
  by_cases hempty : s.stream.items.isEmpty = true
  · rw [if_pos hempty, if_pos hempty]
    rfl
  · rw [if_neg hempty, if_neg hempty, h s]
    cases body s with
    | error e s₁ => rfl
    | ok flow s₁ =>
      cases flow with
      | stop => rfl
      | goOn =>
        simp only [onState, hitems]
        by_cases hless : s₁.stream.items.length < s.stream.items.length
        · rw [if_pos hless, if_pos hless]
          exact ih _ (hlength ▸ hless) _ rfl
        · rw [if_neg hless, if_neg hless]

/-- A structure is written alike if its body is. -/
theorem mirrors_group (h : Mirrors mirror body body') (length : Option Length) :
    Mirrors mirror (group (ctx.inOrder .msb0) head length body)
      (group (ctx.inOrder .lsb0) head length body') := by
  cases length with
  | none => exact h
  | some length =>
    refine (PassM.mirrors_arrayCount count_mirror length).bind fun count => ?_
    refine mirrors_toldCount.bind fun told => ?_
    have hlenient : (ctx.inOrder .lsb0).options.lenient = (ctx.inOrder .msb0).options.lenient := rfl
    rw [hlenient]
    split
    · split
      · exact mirrors_times h _
      · split
        · exact (mirrors_times h _).bind fun _ => Mirrors.pure _
        · exact Mirrors.throw _
    · exact mirrors_times h _
    · exact mirrors_times h _
    · exact mirrors_whileItems h _

/-- A whole layout is, by induction over it. -/
theorem mirrors_fields (l : Layout) :
    Mirrors mirror (fields (ctx.inOrder .msb0) l) (fields (ctx.inOrder .lsb0) l) := by
  induction l with
  | done => exact Mirrors.pure _
  | item head decl rest ih =>
    refine (mirrors_endsBefore _).bind fun ends => ?_
    split
    · exact Mirrors.pure _
    · exact (mirrors_item decl).bind fun _ => ih
  | group head length body closing rest ihbody ihrest =>
    refine (mirrors_endsBefore _).bind fun ends => ?_
    split
    · exact Mirrors.pure _
    · refine (mirrors_group ihbody length).bind fun flow => ?_
      cases flow with
      | stop => exact Mirrors.pure _
      | goOn => exact ihrest

/-- Writing a record in one bit order writes the mirrored bytes of the other. -/
theorem mirrors_record (ctx : PassContext) (l : Layout) :
    Mirrors mirror (record (ctx.inOrder .msb0) l) (record (ctx.inOrder .lsb0) l) := by
  refine (mirrors_fields l).bind fun _ => mirrors_remaining.bind fun items => ?_
  split
  · exact mirrors_onWriter Writer.mirrors_finish
  · exact Mirrors.throw _

end Encode

end RecordLayout
