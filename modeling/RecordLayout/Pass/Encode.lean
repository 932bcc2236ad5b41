import RecordLayout.Layout.Element
import RecordLayout.Pass.Basic
import RecordLayout.Pass.Items

/-!
# Writing a record

The write pass gives items to a stream. Each declaration that holds a value takes one item, brings it
into the form of its type and writes it; expressions see the values in that form, so they see what a
read of the written record would show them.

A structure array takes the number of its elements from the items if they tell it, and otherwise from
its length; an unbounded one that is told nothing goes on as long as there are items, and each of its
elements must take one.

In a lenient pass the record ends before the first declaration that holds a value when no item is
left, and behind a structure array that has fewer elements than its length.
-/

namespace RecordLayout

/-- What a write pass works on: the bits written and the items still to write. -/
structure Feed where
  writer : Writer
  items : List Item

instance : ByteCounter Feed := ⟨fun f => f.writer.streamCount⟩

namespace Encode

/-- An operation of the writer. -/
def onWriter {α : Type} (m : WriteM α) : PassM Feed α :=
  PassM.onStream fun f =>
    match m f.writer with
    | .ok x w => .ok x { f with writer := w }
    | .error e w => .error e { f with writer := w }

/-- The items still to write. -/
def remaining : PassM Feed (List Item) := do
  let s ← get
  pure s.stream.items

/-- Leaves these items to write. -/
def leave (items : List Item) : PassM Feed Unit :=
  modify fun s => { s with stream := { s.stream with items := items } }

/-- The value for a declaration. -/
def nextValue (declaration : String) : PassM Feed Value := do
  match ← remaining with
  | .value v :: rest =>
    leave rest
    pure v
  | .elements _ :: rest =>
    leave rest
    throw (.foundArray declaration)
  | [] => throw (.noValue declaration)

/-- The number of elements that the items tell, if they do. -/
def toldCount : PassM Feed (Option Nat) := do
  match ← remaining with
  | .elements n :: rest =>
    leave rest
    pure (some n)
  | _ => pure none

/-- Writes a value that is in the form of its type. -/
def put (ctx : PassContext) (head : Header) (width : Nat) (v : Value) : ElementType → WriteM Unit
  | .fixed type => Writer.writeNumber v.number type.size head.order ctx.options.bitOrder
  | .bit _ => Writer.writeBits (.ofNat v.number) width ctx.options.bitOrder
  | .text => Writer.writeText v.asText ctx.options.bitOrder
  | .custom _ _ => pure ()

/-- Writes one value of a type, for a known bit width, and gives it back in the form of the type; a
custom type gives nothing back. -/
def element (ctx : PassContext) (head : Header) (width : Nat) (type : ElementType) (v : Value) :
    PassM Feed (Option Value) := do
  match type with
  | .custom use extra =>
    let field ← PassM.customField ctx head use extra
    onWriter ((use.handler.write field v).run ctx.options.bitOrder)
    pure none
  | type =>
    match type.normalize width v with
    | none => throw (.wrongType (head.describe type.name) type.kind.name v)
    | some v =>
      onWriter (put ctx head width v type)
      pure (some v)

/-- Writes the elements of a list. -/
def elements (ctx : PassContext) (head : Header) (width : Nat) (type : ElementType) :
    List Value → PassM Feed Unit
  | [] => pure ()
  | v :: rest => do
    let _ ← element ctx head width type v
    elements ctx head width type rest

/-- An array has as many elements as its length says, if it says it. -/
def checkCount (declaration : String) (count : Option Nat) (supplied : Nat) : PassM Feed Unit :=
  match count with
  | some n =>
    if n = supplied then pure () else throw (.elementCount declaration n supplied)
  | none => pure ()

/-- Writes a value that is no structure. -/
def value (ctx : PassContext) (head : Header) (type : ElementType) (length : Option Length)
    (v : Value) : PassM Feed Unit := do
  let width ← PassM.bitWidth ctx type
  match length with
  | none =>
    match ← element ctx head width type v with
    | some v => PassM.register head.info v
    | none => pure ()
  | some length =>
    let count ← PassM.arrayCount ctx length
    let declaration := head.describe type.name
    match type.isByte, v with
    | true, .bytes bs =>
      checkCount declaration count bs.length
      onWriter (Writer.writeBytes bs ctx.options.bitOrder)
    | _, .list items =>
      checkCount declaration count items.length
      elements ctx head width type items
    | _, v => throw (.notArray declaration v)

/-- Writes a declaration other than a structure. -/
def item (ctx : PassContext) (head : Header) : Decl → PassM Feed Unit
  | .value type length => do
    let v ← nextValue (head.describe type.name)
    value ctx head type length v
  | .computed amount => do
    let n ← PassM.amount ctx amount
    PassM.register head.info (.long n)
  | .align a => do
    let n ← PassM.alignment ctx a
    onWriter (Writer.align n)
  | .skip a => do
    let n ← PassM.skipCount ctx a
    onWriter (Writer.skipBytes n)
  | .reset => onWriter Writer.reset

/-- The record ends before a part of the layout that holds values, or does not. -/
def endsBefore (ctx : PassContext) (holdsValue : Bool) : PassM Feed Bool := do
  let items ← remaining
  pure (ctx.options.lenient && items.isEmpty && holdsValue)

/-- A number of structures. -/
def times (body : PassM Feed Flow) : (count : Nat) → PassM Feed Flow
  | 0 => pure .goOn
  | count + 1 => do
    match ← body with
    | .stop => pure .stop
    | .goOn => times body count

/-- Structures as long as there are items; each must take one. -/
def whileItems (idle : Error) (body : PassM Feed Flow) : PassM Feed Flow := fun s =>
  if s.stream.items.isEmpty then .ok .goOn s
  else
    match body s with
    | .error e s' => .error e s'
    | .ok .stop s' => .ok .stop s'
    | .ok .goOn s' =>
      if s'.stream.items.length < s.stream.items.length then whileItems idle body s'
      else .error idle s'
termination_by s => s.stream.items.length

/-- A structure or an array of them. -/
def group (ctx : PassContext) (head : Header) (length : Option Length)
    (body : PassM Feed Flow) : PassM Feed Flow :=
  match length with
  | none => body
  | some length => do
    let declaration := head.describe Kind.opening.name
    let count ← PassM.arrayCount ctx length
    let told ← toldCount
    match count, told with
    | some expected, some supplied =>
      if expected = supplied then times body supplied
      else if ctx.options.lenient && supplied < expected then do
        let _ ← times body supplied
        pure .stop
      else throw (.elementCount declaration expected supplied)
    | some n, none => times body n
    | none, some n => times body n
    | none, none => whileItems (.takesNoValues declaration) body

/-- Writes the declarations of a layout. -/
def fields (ctx : PassContext) : Layout → PassM Feed Flow
  | .done => pure .goOn
  | .item head decl rest => do
    if ← endsBefore ctx decl.kind.holdsValue then pure .stop
    else
      item ctx head decl
      fields ctx rest
  | .group head length body _ rest => do
    if ← endsBefore ctx body.holdsValue then pure .stop
    else
      match ← group ctx head length (fields ctx body) with
      | .stop => pure .stop
      | .goOn => fields ctx rest

/-- A whole record: every item has to be written. -/
def record (ctx : PassContext) (layout : Layout) : PassM Feed Unit := do
  let _ ← fields ctx layout
  let items ← remaining
  if items.isEmpty then onWriter Writer.finish else throw (.leftOver items.length)

end Encode

end RecordLayout
