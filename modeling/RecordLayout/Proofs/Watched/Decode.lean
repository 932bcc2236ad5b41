import RecordLayout.Pass.Decode
import RecordLayout.Proofs.Checked.Reading
import RecordLayout.Proofs.Watched.Basic

/-!
# Watched reading

The read pass under watch. A declaration gets its node when its value is read to the end or computed,
and an element of a structure array begins before anything of it is read.
-/

namespace RecordLayout

namespace Decode.Watched

open PassM.Watched

/-- A number of elements. -/
def times {α : Type} (element : WatchedM Reader (Step α)) :
    (count : Nat) → WatchedM Reader (List α × Flow)
  | 0 => pure ([], .goOn)
  | count + 1 => do
    match ← element with
    | .last x => pure (x.toList, .stop)
    | .next x =>
      let (xs, flow) ← times element count
      pure (x :: xs, flow)

/-- Elements until none of `least` bits can begin. -/
def toEnd {α : Type} (least : Nat) (order : BitOrder) (idle : Error)
    (element : WatchedM Reader (Step α)) : WatchedM Reader (List α × Flow) := fun s =>
  match onStream (Reader.Checked.atEndFor least order) s with
  | .error e s => .error e s
  | .ok true s => .ok ([], .goOn) s
  | .ok false s₁ =>
    match element s₁ with
    | .error e s => .error e s
    | .ok (.last x) s => .ok (x.toList, .stop) s
    | .ok (.next x) s₂ =>
      if s₂.pass.stream.remaining < s.pass.stream.remaining then
        match toEnd least order idle element s₂ with
        | .error e s => .error e s
        | .ok (xs, flow) s => .ok (x :: xs, flow) s
      else .error (.error idle) s₂
termination_by s => s.pass.stream.remaining

/-- As many elements as an array has, or up to the end of the stream. -/
def elements {α : Type} (ctx : PassContext) (least : Nat) (idle : Error)
    (element : WatchedM Reader (Step α)) : (count : Option Nat) → WatchedM Reader (List α × Flow)
  | some n => times element n
  | none => toEnd least ctx.options.bitOrder idle element

/-- One value of a type, for a known bit width. -/
def element (ctx : PassContext) (head : Header) (width : Nat) :
    ElementType → WatchedM Reader Value
  | .fixed type => do
    let n ← onStream (Reader.Checked.readNumber type.size head.order ctx.options.bitOrder)
    settled (type.ofNumber n)
  | .bit _ => do
    let n ← onStream (Reader.Checked.readBits width ctx.options.bitOrder)
    pure (.bit n.toUInt8)
  | .text => .text <$> onStream (Reader.Checked.readText ctx.options.bitOrder)
  | .custom use extra => do
    let field ← customField ctx head use extra
    onStream ((use.handler.read field).checkedRun ctx.options.bitOrder)

/-- An array of single bytes. -/
def byteArray (ctx : PassContext) (type : ElementType) :
    (count : Option Nat) → WatchedM Reader (List UInt8)
  | some n => onStream (Reader.Checked.readBytes n ctx.options.bitOrder)
  | none =>
    Prod.fst <$> toEnd 8 ctx.options.bitOrder (.idleElement type.name)
      (.next <$> onStream (Reader.Checked.readByte ctx.options.bitOrder))

/-- A value that is no structure. -/
def value (ctx : PassContext) (head : Header) (type : ElementType) (length : Option Length) :
    WatchedM Reader Value := do
  let width ← bitWidth ctx head type
  match length with
  | none => element ctx head width type
  | some length =>
    let count ← arrayCount ctx head length
    if type.isByte then .bytes <$> byteArray ctx type count
    else
      let (items, _) ← elements ctx (type.leastBits width) (.idleElement type.name)
        (.next <$> element ctx head width type) count
      pure (.list items)

/-- A declaration other than a structure; a directive gives no node. -/
def item (ctx : PassContext) (head : Header) : Decl → WatchedM Reader (Option Field)
  | .value type length => do
    let v ← value ctx head type length
    if length.isNone then register head.info v
    note (.node head.index v)
    pure (some (.new head.info v))
  | .computed a => do
    let n ← amount ctx head a
    register head.info (.long n)
    note (.node head.index (.long n))
    pure (some (.new head.info (.long n)))
  | .align a => do
    let n ← alignment ctx head a
    onStream (Reader.Checked.align n)
    pure none
  | .skip a => do
    let n ← skipCount ctx head a
    onStream (Reader.Checked.skipBytes n)
    pure none
  | .reset => do
    onStream (plainly Reader.reset)
    pure none

/-- The record ends before a part of the layout that holds values, or does not. -/
def endsBefore (ctx : PassContext) (holdsValue : Bool) : WatchedM Reader Bool :=
  if ctx.options.lenient && holdsValue then onStream (plainly Reader.isExhausted) else pure false

/-- A structure or an array of them, whose body certainly takes a number of bits. -/
def group (ctx : PassContext) (head : Header) (length : Option Length) (certain : Nat)
    (body : WatchedM Reader (List Field × Flow)) : WatchedM Reader (Value × Flow) :=
  match length with
  | none => do
    let (fields, flow) ← body
    pure (.struct fields, flow)
  | some length => do
    let count ← arrayCount ctx head length
    let (items, flow) ← elements ctx (leastBits certain)
      (.idleStructure (head.describe Kind.opening.name))
      (note (.element head.index) >>= fun _ => Step.ofBody <$> body) count
    pure (.list items, flow)

/-- The fields of a layout. -/
def fields (ctx : PassContext) : Layout → WatchedM Reader (List Field × Flow)
  | .done => pure ([], .goOn)
  | .item head decl rest => do
    if ← endsBefore ctx decl.kind.holdsValue then pure ([], .stop)
    else
      let node ← item ctx head decl
      let (more, flow) ← fields ctx rest
      pure (node.toList ++ more, flow)
  | .group head length body _ rest => do
    if ← endsBefore ctx body.holdsValue then pure ([], .stop)
    else
      let (v, flow) ← group ctx head length body.certainBits (fields ctx body)
      match flow with
      | .stop => pure ([.new head.info v], .stop)
      | .goOn =>
        let (more, flow) ← fields ctx rest
        pure (.new head.info v :: more, flow)

/-- A whole record: the tree under an unnamed root. -/
def record (ctx : PassContext) (layout : Layout) : WatchedM Reader Field := do
  let (found, _) ← fields ctx layout
  pure (.unnamed (.struct found))

variable {α : Type} {ctx : PassContext} {head : Header}

open Reader (InByte)

/-- Elements that are counted, by induction over their number. -/
theorem safe_times {element : PassM Reader (Step α)} {watched : WatchedM Reader (Step α)}
    (h : WatchedSafe InByte element watched) (count : Nat) :
    WatchedSafe InByte (Decode.times element count) (times watched count) := by
  induction count with
  | zero => exact Safe.pure _
  | succ count ih =>
    refine h.bind fun step => ?_
    cases step with
    | last x => exact Safe.pure _
    | next x => exact ih.bind fun _ => Safe.pure _

/-- The induction is on the bits that remain. -/
theorem safe_toEnd {element : PassM Reader (Step α)} {watched : WatchedM Reader (Step α)}
    (h : WatchedSafe InByte element watched) (least : Nat) (order : BitOrder) (idle : Error) :
    WatchedSafe InByte (Decode.toEnd least order idle element)
      (toEnd least order idle watched) := by
  intro s hs
  induction hremaining : s.pass.stream.remaining using Nat.strongRecOn generalizing s with
  | ind n ih =>
  have hat := safe_onStream (Reader.safe_atEndFor least order)
  rw [Decode.toEnd, toEnd]
  cases hend : PassM.onStream (Reader.atEndFor least order) s.pass with
  | error e s₁ =>
    obtain ⟨t₁, hw, rfl, hs₁⟩ := hat.eq_error hs hend
    rw [hw]
    exact ⟨rfl, hs₁⟩
  | ok atEnd s₁ =>
    obtain ⟨t₁, hw, rfl, hs₁⟩ := hat.eq_ok hs hend
    rw [hw]
    cases atEnd with
    | true => exact ⟨rfl, hs₁⟩
    | false =>
      dsimp only
      cases helement : element t₁.pass with
      | error e s₂ =>
        obtain ⟨t₂, hw₂, rfl, hs₂⟩ := h.eq_error hs₁ helement
        rw [hw₂]
        exact ⟨rfl, hs₂⟩
      | ok step s₂ =>
        obtain ⟨t₂, hw₂, rfl, hs₂⟩ := h.eq_ok hs₁ helement
        rw [hw₂]
        cases step with
        | last x => exact ⟨rfl, hs₂⟩
        | next x =>
          dsimp only
          by_cases hless : t₂.pass.stream.remaining < s.pass.stream.remaining
          · obtain ⟨hrest, hkeep⟩ := ih _ (hremaining ▸ hless) t₂ hs₂ rfl
            rw [if_pos hless, if_pos hless]
            cases htoEnd : Decode.toEnd least order idle element t₂.pass with
            | error e s₃ =>
              rw [htoEnd] at hrest hkeep
              obtain ⟨t₃, hw₃, rfl⟩ := error_of_onState hrest
              rw [hw₃]
              exact ⟨rfl, hkeep⟩
            | ok found s₃ =>
              rw [htoEnd] at hrest hkeep
              obtain ⟨t₃, hw₃, rfl⟩ := ok_of_onState hrest
              rw [hw₃]
              exact ⟨rfl, hkeep⟩
          · rw [if_neg hless, if_neg hless]
            exact ⟨rfl, hs₂⟩

theorem safe_elements {element : PassM Reader (Step α)} {watched : WatchedM Reader (Step α)}
    (h : WatchedSafe InByte element watched) (least : Nat) (idle : Error) (count : Option Nat) :
    WatchedSafe InByte (Decode.elements ctx least idle element count)
      (elements ctx least idle watched count) := by
  cases count with
  | some n => exact safe_times h n
  | none => exact safe_toEnd h least _ idle

/-- An element of each type is read by a checked operation of the stream. -/
theorem safe_element (width : Nat) (type : ElementType) :
    WatchedSafe InByte (Decode.element ctx head width type) (element ctx head width type) := by
  cases type with
  | fixed type =>
    exact (safe_onStream (Reader.safe_readNumber _ _ _)).bind fun _ => Safe.settle _
  | bit _ => exact (safe_onStream (Reader.safe_readBits _ _)).bind fun _ => Safe.pure _
  | text => exact (safe_onStream (Reader.safe_readText _)).map _
  | custom use extra =>
    refine (safe_customField use extra).bind fun field => ?_
    exact safe_onStream (ReadProgram.safe_run _ _)

theorem safe_byteArray (type : ElementType) (count : Option Nat) :
    WatchedSafe InByte (Decode.byteArray ctx type count) (byteArray ctx type count) := by
  cases count with
  | some n => exact safe_onStream (Reader.safe_readBytes n _)
  | none => exact (safe_toEnd ((safe_onStream (Reader.safe_readByte _)).map _) _ _ _).map _

theorem safe_value (type : ElementType) (length : Option Length) :
    WatchedSafe InByte (Decode.value ctx head type length) (value ctx head type length) := by
  refine (safe_bitWidth type).bind fun width => ?_
  cases length with
  | none => exact safe_element width type
  | some length =>
    refine (safe_arrayCount length).bind fun count => ?_
    dsimp only
    split
    · exact (safe_byteArray type count).map _
    · exact (safe_elements ((safe_element width type).map _) _ _ count).bind fun _ => Safe.pure _

/-- A declaration is read safely, and its node is noted. -/
theorem safe_item (decl : Decl) :
    WatchedSafe InByte (Decode.item ctx head decl) (item ctx head decl) := by
  cases decl with
  | value type length =>
    refine (safe_value type length).bind fun v => ?_
    dsimp only
    split
    · exact (safe_register _ _).bind fun _ => safe_note_bind (Safe.pure _) _
    · exact safe_note_bind (Safe.pure _) _
  | computed a =>
    refine (safe_amount a).bind fun n => ?_
    exact (safe_register _ _).bind fun _ => safe_note_bind (Safe.pure _) _
  | align a =>
    refine (safe_alignment a).bind fun n => ?_
    exact (safe_onStream (Reader.safe_align n)).bind fun _ => Safe.pure _
  | skip a =>
    refine (safe_skipCount a).bind fun n => ?_
    exact (safe_onStream (Reader.safe_skipBytes n)).bind fun _ => Safe.pure _
  | reset => exact (safe_onStream Reader.safe_reset).bind fun _ => Safe.pure _

theorem safe_endsBefore (holdsValue : Bool) :
    WatchedSafe InByte (Decode.endsBefore ctx holdsValue) (endsBefore ctx holdsValue) := by
  unfold Decode.endsBefore endsBefore
  split
  · exact safe_onStream (Safe.plainly Reader.retains_isExhausted)
  · exact Safe.pure _

theorem safe_group {body : PassM Reader (List Field × Flow)}
    {watched : WatchedM Reader (List Field × Flow)} (h : WatchedSafe InByte body watched)
    (length : Option Length) (certain : Nat) :
    WatchedSafe InByte (Decode.group ctx head length certain body)
      (group ctx head length certain watched) := by
  cases length with
  | none => exact h.bind fun _ => Safe.pure _
  | some length =>
    refine (safe_arrayCount length).bind fun count => ?_
    have hbody := safe_note_bind (h.map Step.ofBody) (.element head.index)
    exact (safe_elements hbody _ _ count).bind fun _ => Safe.pure _

/-- A whole layout is, by induction over it. -/
theorem safe_fields (l : Layout) :
    WatchedSafe InByte (Decode.fields ctx l) (fields ctx l) := by
  induction l with
  | done => exact Safe.pure _
  | item head decl rest ih =>
    refine (safe_endsBefore _).bind fun ends => ?_
    split
    · exact Safe.pure _
    · exact (safe_item decl).bind fun _ => ih.bind fun _ => Safe.pure _
  | group head length body closing rest ihbody ihrest =>
    refine (safe_endsBefore _).bind fun ends => ?_
    split
    · exact Safe.pure _
    · refine (safe_group ihbody length _).bind fun found => ?_
      obtain ⟨v, flow⟩ := found
      cases flow with
      | stop => exact Safe.pure _
      | goOn => exact ihrest.bind fun _ => Safe.pure _

/-- Watching a read changes nothing, and no fault is found. -/
theorem safe_record (l : Layout) :
    WatchedSafe InByte (Decode.record ctx l) (record ctx l) :=
  (safe_fields l).bind fun _ => Safe.pure _

end Decode.Watched

end RecordLayout
