import RecordLayout.Pass.Encode
import RecordLayout.Proofs.Checked.Writing
import RecordLayout.Proofs.Watched.Basic

/-!
# Watched writing

The write pass under watch. A declaration gets its node when its value is written, in the form of its
type if it has one, or computed. The number of bits that cuts a supplied integer is checked before a
word is shifted by it, and a value must be a scalar to be put.
-/

namespace RecordLayout

/-- The value is a number, a truth value or a text. -/
def Value.isScalar : Value → Bool
  | bytes _ | list _ | struct _ => false
  | _ => true

/-- A supplied value in the form of the type. -/
def ElementType.checkedNormalize {τ : Type} (width : Nat) (v : Value) :
    ElementType → CheckedM τ (Option Value)
  | bit _ =>
    match v.asInt with
    | none => pure none
    | some n => do
      checkShift width 64
      pure (some (.bit (n.toUInt64 &&& (1 <<< UInt64.ofNat width - 1)).toUInt8))
  | type => pure (type.normalize width v)

namespace Encode.Watched

open PassM.Watched

/-- An operation of the writer. -/
def onWriter {α : Type} (w : CheckedM Writer α) : WatchedM Feed α :=
  onStream fun f =>
    match w f.writer with
    | .ok x writer => .ok x { f with writer := writer }
    | .error e writer => .error e { f with writer := writer }

/-- The items still to write. -/
def remaining : WatchedM Feed (List Item) := do
  let s ← get
  pure s.pass.stream.items

/-- Leaves these items to write. -/
def leave (items : List Item) : WatchedM Feed Unit :=
  modify fun s => { s with pass := { s.pass with stream := { s.pass.stream with items := items } } }

/-- The value for a declaration. -/
def nextValue (declaration : String) : WatchedM Feed Value := do
  match ← remaining with
  | .value v :: rest =>
    leave rest
    pure v
  | .elements _ :: rest =>
    leave rest
    raise (.foundArray declaration)
  | [] => raise (.noValue declaration)

/-- The number of elements that the items tell, if they do. -/
def toldCount : WatchedM Feed (Option Nat) := do
  match ← remaining with
  | .elements n :: rest =>
    leave rest
    pure (some n)
  | _ => pure none

/-- Writes a value that is in the form of its type. -/
def put (ctx : PassContext) (head : Header) (width : Nat) (v : Value) (type : ElementType) :
    CheckedM Writer Unit :=
  if v.isScalar then
    match type with
    | .fixed type =>
      Writer.Checked.writeNumber v.number type.size head.order ctx.options.bitOrder
    | .bit _ => Writer.Checked.writeBits (.ofNat v.number) width ctx.options.bitOrder
    | .text => Writer.Checked.writeText v.asText ctx.options.bitOrder
    | .custom _ _ => pure ()
  else fault (.notScalar v)

/-- Writes one value in the form of its type. -/
def scalar (ctx : PassContext) (head : Header) (width : Nat) (type : ElementType) (v : Value) :
    WatchedM Feed (Option Value) := do
  match ← type.checkedNormalize width v with
  | none => raise (.wrongType (head.describe type.name) type.kind.name v)
  | some v =>
    onWriter (put ctx head width v type)
    pure (some v)

/-- Writes one value of a type, for a known bit width. -/
def element (ctx : PassContext) (head : Header) (width : Nat) (type : ElementType) (v : Value) :
    WatchedM Feed (Option Value) :=
  match type with
  | .custom use extra => do
    let field ← customField ctx head use extra
    onWriter ((use.handler.write field v).checkedRun ctx.options.bitOrder)
    pure none
  | type => scalar ctx head width type v

/-- Writes the elements of a list. -/
def elements (ctx : PassContext) (head : Header) (width : Nat) (type : ElementType) :
    List Value → WatchedM Feed Unit
  | [] => pure ()
  | v :: rest => do
    let _ ← element ctx head width type v
    elements ctx head width type rest

/-- An array has as many elements as its length says, if it says it. -/
def checkCount (declaration : String) (count : Option Nat) (supplied : Nat) : WatchedM Feed Unit :=
  match count with
  | some n => if n = supplied then pure () else raise (.elementCount declaration n supplied)
  | none => pure ()

/-- Writes a value that is no structure. -/
def value (ctx : PassContext) (head : Header) (type : ElementType) (length : Option Length)
    (v : Value) : WatchedM Feed Unit := do
  let width ← bitWidth ctx head type
  match length with
  | none =>
    match ← element ctx head width type v with
    | some v =>
      register head.info v
      note (.node head.index v)
    | none => note (.node head.index v)
  | some length =>
    let count ← arrayCount ctx head length
    let declaration := head.describe type.name
    match type.isByte, v with
    | true, .bytes bs =>
      checkCount declaration count bs.length
      onWriter (Writer.Checked.writeBytes bs ctx.options.bitOrder)
      note (.node head.index v)
    | _, .list items =>
      checkCount declaration count items.length
      elements ctx head width type items
      note (.node head.index v)
    | _, v => raise (.notArray declaration v)

/-- Writes a declaration other than a structure. -/
def item (ctx : PassContext) (head : Header) : Decl → WatchedM Feed Unit
  | .value type length => do
    let v ← nextValue (head.describe type.name)
    value ctx head type length v
  | .computed a => do
    let n ← amount ctx head a
    register head.info (.long n)
    note (.node head.index (.long n))
  | .align a => do
    let n ← alignment ctx head a
    onWriter (Writer.Checked.align n)
  | .skip a => do
    let n ← skipCount ctx head a
    onWriter (Writer.Checked.skipBytes n)
  | .reset => onWriter (plainly Writer.reset)

/-- The record ends before a part of the layout that holds values, or does not. -/
def endsBefore (ctx : PassContext) (holdsValue : Bool) : WatchedM Feed Bool := do
  let items ← remaining
  pure (ctx.options.lenient && items.isEmpty && holdsValue)

/-- A number of structures. -/
def times (body : WatchedM Feed Flow) : (count : Nat) → WatchedM Feed Flow
  | 0 => pure .goOn
  | count + 1 => do
    match ← body with
    | .stop => pure .stop
    | .goOn => times body count

/-- Structures as long as there are items; each must take one. -/
def whileItems (idle : Error) (body : WatchedM Feed Flow) : WatchedM Feed Flow := fun s =>
  if s.pass.stream.items.isEmpty then .ok .goOn s
  else
    match body s with
    | .error e s' => .error e s'
    | .ok .stop s' => .ok .stop s'
    | .ok .goOn s' =>
      if s'.pass.stream.items.length < s.pass.stream.items.length then whileItems idle body s'
      else .error (.error idle) s'
termination_by s => s.pass.stream.items.length

/-- A structure or an array of them. -/
def group (ctx : PassContext) (head : Header) (length : Option Length)
    (body : WatchedM Feed Flow) : WatchedM Feed Flow :=
  match length with
  | none => body
  | some length => do
    let declaration := head.describe Kind.opening.name
    let count ← arrayCount ctx head length
    let told ← toldCount
    let body := note (.element head.index) >>= fun _ => body
    match count, told with
    | some expected, some supplied =>
      if expected = supplied then times body supplied
      else if ctx.options.lenient && supplied < expected then do
        let _ ← times body supplied
        pure .stop
      else raise (.elementCount declaration expected supplied)
    | some n, none => times body n
    | none, some n => times body n
    | none, none => whileItems (.takesNoValues declaration) body

/-- Writes the declarations of a layout. -/
def fields (ctx : PassContext) : Layout → WatchedM Feed Flow
  | .done => pure .goOn
  | .item head decl rest => do
    if ← endsBefore ctx decl.kind.holdsValue then pure .stop
    else
      item ctx head decl
      fields ctx rest
  | .group head length body _ rest => do
    if ← endsBefore ctx body.holdsValue then pure .stop
    else
      match ← group ctx head length (fields ctx body) with
      | .stop => pure .stop
      | .goOn => fields ctx rest

/-- A whole record: every item has to be written. -/
def record (ctx : PassContext) (layout : Layout) : WatchedM Feed Unit := do
  let _ ← fields ctx layout
  let items ← remaining
  if items.isEmpty then onWriter (plainly Writer.finish) else raise (.leftOver items.length)

/-! ## Watching changes nothing -/

/-- Fewer than the eight bits of a byte are filled. -/
def InByte (f : Feed) : Prop := f.writer.InByte

variable {α : Type} {ctx : PassContext} {head : Header}

/-- A checked operation of the writer is safe in a watched pass. -/
theorem safe_onWriter {m : WriteM α} {w : CheckedM Writer α} (h : Safe Writer.InByte id m w) :
    WatchedSafe InByte (Encode.onWriter m) (onWriter w) := by
  apply safe_onStream
  apply Safe.here
  intro f hf
  cases hm : m f.writer with
  | ok x writer =>
    obtain ⟨writer', hw, rfl, hkeep⟩ := h.eq_ok hf hm
    rw [hw]
    exact ⟨rfl, hkeep⟩
  | error e writer =>
    obtain ⟨writer', hw, rfl, hkeep⟩ := h.eq_error hf hm
    rw [hw]
    exact ⟨rfl, hkeep⟩

theorem safe_remaining : WatchedSafe InByte Encode.remaining remaining :=
  Safe.get_bind fun _ h => ⟨rfl, h⟩

theorem safe_leave (items : List Item) : WatchedSafe InByte (Encode.leave items) (leave items) :=
  Safe.modify (fun _ => rfl) fun _ h => h

theorem safe_nextValue (declaration : String) :
    WatchedSafe InByte (Encode.nextValue declaration) (nextValue declaration) := by
  refine safe_remaining.bind fun items => ?_
  rcases items with _ | ⟨_ | _, rest⟩
  · exact Safe.throw _
  · exact (safe_leave rest).bind fun _ => Safe.pure _
  · exact (safe_leave rest).bind fun _ => Safe.throw _

theorem safe_toldCount : WatchedSafe InByte Encode.toldCount toldCount := by
  refine safe_remaining.bind fun items => ?_
  rcases items with _ | ⟨_ | n, rest⟩
  · exact Safe.pure _
  · exact Safe.pure _
  · exact (safe_leave rest).bind fun _ => Safe.pure _

/-- A bit type has at most eight bits. -/
def Fitting (width : Nat) (type : ElementType) : Prop :=
  ∀ w, type = .bit w → width ≤ 8

theorem toNat_le_of_le {w : Int64} (h : w ≤ 8) : w.toInt.toNat ≤ 8 := by
  have hw : w.toInt ≤ (8 : Int64).toInt := Int64.le_iff_toInt_le.mp h
  have height : (8 : Int64).toInt = 8 := rfl
  omega

/-- The width of a bit field that is written was checked. -/
theorem fitting_of_bitWidth {type : ElementType} {width : Nat} {s s' : PassState Feed}
    (h : PassM.bitWidth ctx type s = .ok width s') : Fitting width type := by
  intro w hw
  subst hw
  obtain ⟨v, s₁, -, h⟩ := bind_eq_ok.mp h
  split at h
  · rename_i hbounds
    cases h
    exact toNat_le_of_le hbounds.2
  · cases h

/-- With a width that was checked no mask is too wide. -/
theorem checkedNormalize_of_fitting {τ : Type} {type : ElementType} {width : Nat}
    (h : Fitting width type) (v : Value) :
    (type.checkedNormalize width v : CheckedM τ (Option Value)) = pure (type.normalize width v) := by
  cases type with
  | bit w =>
    have hwidth := h w rfl
    simp only [ElementType.checkedNormalize, ElementType.normalize]
    cases v.asInt with
    | none => rfl
    | some n =>
      have hmask : mask width = 1 <<< UInt64.ofNat width - 1 := if_neg (by omega)
      have hbits : (n.toUInt64 &&& mask width).toUInt8 =
          UInt8.ofNat (n.toUInt64.toNat % 2 ^ width) := by
        apply UInt8.toNat_inj.mp
        rw [UInt64.toNat_toUInt8, UInt64.toNat_and, toNat_mask (by omega),
          Nat.and_two_pow_sub_one_eq_mod, UInt8.toNat_ofNat']
      simp only [checkShift, if_pos (show width < 64 by omega), pure_bind]
      rw [← hmask, hbits]
      rfl
  | fixed type => rfl
  | text => rfl
  | custom use extra => rfl

/-- The normal form of an element is no structure and no array. -/
theorem isScalar_of_normalize {type : ElementType} {width : Nat} {v v' : Value}
    (h : type.normalize width v = some v') : v'.isScalar := by
  cases type with
  | fixed type =>
    cases type <;> obtain ⟨n, -, rfl⟩ := Option.map_eq_some_iff.mp h <;> rfl
  | bit w =>
    obtain ⟨n, -, rfl⟩ := Option.map_eq_some_iff.mp h
    rfl
  | text =>
    cases v with
    | text t =>
      cases h
      rfl
    | _ => cases h
  | custom use extra => cases h

/-- A scalar is put by a checked operation of the writer. -/
theorem safe_put {width : Nat} {v : Value} (hv : v.isScalar) (type : ElementType) :
    Safe Writer.InByte id (Encode.put ctx head width v type) (put ctx head width v type) := by
  unfold put
  rw [if_pos hv]
  cases type with
  | fixed type => exact Writer.safe_writeNumber _ _ _ _
  | bit _ => exact Writer.safe_writeBits _ _ _
  | text => exact Writer.safe_writeText _ _
  | custom _ _ => exact Safe.pure _

theorem safe_element {width : Nat} {type : ElementType} (h : Fitting width type) (v : Value) :
    WatchedSafe InByte (Encode.element ctx head width type v) (element ctx head width type v) := by
  have hscalar : WatchedSafe InByte
      (match type.normalize width v with
        | none => throw (.wrongType (head.describe type.name) type.kind.name v)
        | some v => do
          Encode.onWriter (Encode.put ctx head width v type)
          pure (some v))
      (scalar ctx head width type v) := by
    unfold scalar
    rw [checkedNormalize_of_fitting h, pure_bind]
    cases hnormal : type.normalize width v with
    | none => exact Safe.throw _
    | some v' =>
      exact (safe_onWriter (safe_put (isScalar_of_normalize hnormal) type)).bind fun _ => Safe.pure _
  cases type with
  | custom use extra =>
    refine (safe_customField use extra).bind fun field => ?_
    exact (safe_onWriter (WriteProgram.safe_run _ _)).bind fun _ => Safe.pure _
  | fixed _ | bit _ | text => exact hscalar

theorem safe_elements {width : Nat} {type : ElementType} (h : Fitting width type)
    (vs : List Value) :
    WatchedSafe InByte (Encode.elements ctx head width type vs) (elements ctx head width type vs) := by
  induction vs with
  | nil => exact Safe.pure _
  | cons v vs ih => exact (safe_element h v).bind fun _ => ih

theorem safe_checkCount (declaration : String) (count : Option Nat) (supplied : Nat) :
    WatchedSafe InByte (Encode.checkCount declaration count supplied)
      (checkCount declaration count supplied) := by
  cases count with
  | none => exact Safe.pure _
  | some n =>
    unfold Encode.checkCount checkCount
    dsimp only
    split
    · exact Safe.pure _
    · exact Safe.throw _

/-- An event behind an operation. -/
theorem safe_bind_note {m : PassM Feed Unit} {w : WatchedM Feed Unit} (h : WatchedSafe InByte m w)
    (e : Event) : WatchedSafe InByte m (w >>= fun _ => note e) := by
  have hbind := h.bind fun _ => safe_note e
  rwa [bind_pure_unit] at hbind

/-- A value is written safely once its width is known, which is checked first. -/
theorem safe_value (type : ElementType) (length : Option Length) (v : Value) :
    WatchedSafe InByte (Encode.value ctx head type length v) (value ctx head type length v) := by
  refine (safe_bitWidth type).bind_of_ok fun width s s' hwidth => ?_
  have hfits := fitting_of_bitWidth hwidth
  cases length with
  | none =>
    refine (safe_element hfits v).bind fun written => ?_
    cases written with
    | none => exact safe_note _
    | some v => exact safe_bind_note (safe_register _ _) _
  | some length =>
    refine (safe_arrayCount length).bind fun count => ?_
    dsimp only
    generalize type.isByte = isByte
    cases v with
    | bytes bs =>
      cases isByte with
      | true =>
        refine (safe_checkCount _ count bs.length).bind fun _ => ?_
        exact safe_bind_note (safe_onWriter (Writer.safe_writeBytes bs _)) _
      | false => exact Safe.throw _
    | list items =>
      have helements : WatchedSafe InByte (Encode.elements ctx head width type items)
          (elements ctx head width type items) := safe_elements hfits items
      have hlist := (safe_checkCount (head.describe type.name) count items.length).bind fun _ =>
        safe_bind_note helements (.node head.index (.list items))
      cases isByte with
      | true => exact hlist
      | false => exact hlist
    | _ =>
      cases isByte with
      | true => exact Safe.throw _
      | false => exact Safe.throw _

theorem safe_item (decl : Decl) :
    WatchedSafe InByte (Encode.item ctx head decl) (item ctx head decl) := by
  cases decl with
  | value type length => exact (safe_nextValue _).bind fun v => safe_value type length v
  | computed a =>
    refine (safe_amount a).bind fun n => ?_
    exact safe_bind_note (safe_register _ _) _
  | align a => exact (safe_alignment a).bind fun n => safe_onWriter (Writer.safe_align n)
  | skip a => exact (safe_skipCount a).bind fun n => safe_onWriter (Writer.safe_skipBytes n)
  | reset => exact safe_onWriter (Safe.plainly Writer.retains_reset)

theorem safe_endsBefore (holdsValue : Bool) :
    WatchedSafe InByte (Encode.endsBefore ctx holdsValue) (endsBefore ctx holdsValue) :=
  safe_remaining.bind fun _ => Safe.pure _

/-- Structures that are told, by induction over their number. -/
theorem safe_times {body : PassM Feed Flow} {watched : WatchedM Feed Flow}
    (h : WatchedSafe InByte body watched) (count : Nat) :
    WatchedSafe InByte (Encode.times body count) (times watched count) := by
  induction count with
  | zero => exact Safe.pure _
  | succ count ih =>
    refine h.bind fun flow => ?_
    cases flow with
    | stop => exact Safe.pure _
    | goOn => exact ih

/-- The induction is on the items still to write. -/
theorem safe_whileItems {body : PassM Feed Flow} {watched : WatchedM Feed Flow}
    (h : WatchedSafe InByte body watched) (idle : Error) :
    WatchedSafe InByte (Encode.whileItems idle body) (whileItems idle watched) := by
  intro s hs
  induction hitems : s.pass.stream.items.length using Nat.strongRecOn generalizing s with
  | ind n ih =>
  rw [Encode.whileItems, whileItems]
  by_cases hempty : s.pass.stream.items.isEmpty
  · rw [if_pos hempty, if_pos hempty]
    exact ⟨rfl, hs⟩
  · rw [if_neg hempty, if_neg hempty]
    cases hbody : body s.pass with
    | error e s₁ =>
      obtain ⟨t₁, hw, rfl, hs₁⟩ := h.eq_error hs hbody
      rw [hw]
      exact ⟨rfl, hs₁⟩
    | ok flow s₁ =>
      obtain ⟨t₁, hw, rfl, hs₁⟩ := h.eq_ok hs hbody
      rw [hw]
      cases flow with
      | stop => exact ⟨rfl, hs₁⟩
      | goOn =>
        dsimp only
        by_cases hless : t₁.pass.stream.items.length < s.pass.stream.items.length
        · rw [if_pos hless, if_pos hless]
          exact ih _ (hitems ▸ hless) t₁ hs₁ rfl
        · rw [if_neg hless, if_neg hless]
          exact ⟨rfl, hs₁⟩

theorem safe_group {body : PassM Feed Flow} {watched : WatchedM Feed Flow}
    (h : WatchedSafe InByte body watched) (length : Option Length) :
    WatchedSafe InByte (Encode.group ctx head length body) (group ctx head length watched) := by
  cases length with
  | none => exact h
  | some length =>
    refine (safe_arrayCount length).bind fun count => safe_toldCount.bind fun told => ?_
    have hbody := safe_note_bind h (.element head.index)
    cases count with
    | none =>
      cases told with
      | none => exact safe_whileItems hbody _
      | some n => exact safe_times hbody n
    | some expected =>
      cases told with
      | none => exact safe_times hbody expected
      | some supplied =>
        dsimp only
        split
        · exact safe_times hbody supplied
        · split
          · exact (safe_times hbody supplied).bind fun _ => Safe.pure _
          · exact Safe.throw _

/-- A whole layout is written safely, by induction over it. -/
theorem safe_fields (l : Layout) :
    WatchedSafe InByte (Encode.fields ctx l) (fields ctx l) := by
  induction l with
  | done => exact Safe.pure _
  | item head decl rest ih =>
    refine (safe_endsBefore _).bind fun ends => ?_
    split
    · exact Safe.pure _
    · exact (safe_item decl).bind fun _ => ih
  | group head length body closing rest ihbody ihrest =>
    refine (safe_endsBefore _).bind fun ends => ?_
    split
    · exact Safe.pure _
    · refine (safe_group ihbody length).bind fun flow => ?_
      cases flow with
      | stop => exact Safe.pure _
      | goOn => exact ihrest

/-- Watching a write changes nothing, and no fault is found. -/
theorem safe_record (l : Layout) :
    WatchedSafe InByte (Encode.record ctx l) (record ctx l) := by
  refine (safe_fields l).bind fun _ => safe_remaining.bind fun items => ?_
  split
  · exact safe_onWriter (Safe.plainly Writer.retains_finish)
  · exact Safe.throw _

end Encode.Watched

end RecordLayout
