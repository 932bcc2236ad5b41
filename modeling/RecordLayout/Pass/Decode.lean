import RecordLayout.Layout.Element
import RecordLayout.Pass.Basic

/-!
# Reading a record

The read pass takes a field tree from a stream. Each declaration that is no directive gives one node.
An array of single bytes gives a byte string, any other array a list; a structure gives a structure,
an array of structures a list of them.

An unbounded array ends where no further element can begin. Its elements must take something from
the stream: an element that leaves as many bits as it found is an error, so the loop ends after as
many elements as there are bits.

In a lenient pass the record may end before any declaration that holds a value. The tree then holds
what was read so far; an element of a structure array that would be empty is left out.
-/

namespace RecordLayout

instance : ByteCounter Reader := ⟨Reader.byteCount⟩

namespace Decode

/-- One element of a repetition: another one may follow, or the record ends with it, if there is
anything of it. -/
inductive Step (α : Type) where
  | next (x : α)
  | last (x : Option α)

/-- A number of elements. -/
def times {α : Type} (element : PassM Reader (Step α)) :
    (count : Nat) → PassM Reader (List α × Flow)
  | 0 => pure ([], .goOn)
  | count + 1 => do
    match ← element with
    | .last x => pure (x.toList, .stop)
    | .next x =>
      let (xs, flow) ← times element count
      pure (x :: xs, flow)

/-- Elements until none of `least` bits can begin. -/
def toEnd {α : Type} (least : Nat) (order : BitOrder) (idle : Error)
    (element : PassM Reader (Step α)) : PassM Reader (List α × Flow) := fun s =>
  match PassM.onStream (Reader.atEndFor least order) s with
  | .error e s => .error e s
  | .ok true s => .ok ([], .goOn) s
  | .ok false s₁ =>
    match element s₁ with
    | .error e s => .error e s
    | .ok (.last x) s => .ok (x.toList, .stop) s
    | .ok (.next x) s₂ =>
      if s₂.stream.remaining < s.stream.remaining then
        match toEnd least order idle element s₂ with
        | .error e s => .error e s
        | .ok (xs, flow) s => .ok (x :: xs, flow) s
      else .error idle s₂
termination_by s => s.stream.remaining

/-- As many elements as an array has, or up to the end of the stream. -/
def elements {α : Type} (ctx : PassContext) (least : Nat) (idle : Error)
    (element : PassM Reader (Step α)) : (count : Option Nat) → PassM Reader (List α × Flow)
  | some n => times element n
  | none => toEnd least ctx.options.bitOrder idle element

/-- One value of a type, for a known bit width. -/
def element (ctx : PassContext) (head : Header) (width : Nat) :
    ElementType → PassM Reader Value
  | .fixed type => do
    let n ← PassM.onStream (Reader.readNumber type.size head.order ctx.options.bitOrder)
    settle (type.ofNumber n)
  | .bit _ => do
    let n ← PassM.onStream (Reader.readBits width ctx.options.bitOrder)
    pure (.bit n.toUInt8)
  | .text => .text <$> PassM.onStream (Reader.readText ctx.options.bitOrder)
  | .custom use extra => do
    let field ← PassM.customField ctx head use extra
    PassM.onStream ((use.handler.read field).run ctx.options.bitOrder)

/-- An array of single bytes. -/
def byteArray (ctx : PassContext) (type : ElementType) :
    (count : Option Nat) → PassM Reader (List UInt8)
  | some n => PassM.onStream (Reader.readBytes n ctx.options.bitOrder)
  | none =>
    Prod.fst <$> toEnd 8 ctx.options.bitOrder (.idleElement type.name)
      (.next <$> PassM.onStream (Reader.readByte ctx.options.bitOrder))

/-- A value that is no structure. -/
def value (ctx : PassContext) (head : Header) (type : ElementType) (length : Option Length) :
    PassM Reader Value := do
  let width ← PassM.bitWidth ctx type
  match length with
  | none => element ctx head width type
  | some length =>
    let count ← PassM.arrayCount ctx length
    if type.isByte then .bytes <$> byteArray ctx type count
    else
      let (items, _) ← elements ctx (type.leastBits width) (.idleElement type.name)
        (.next <$> element ctx head width type) count
      pure (.list items)

/-- A declaration other than a structure; a directive gives no node. -/
def item (ctx : PassContext) (head : Header) : Decl → PassM Reader (Option Field)
  | .value type length => do
    let v ← value ctx head type length
    if length.isNone then PassM.register head.info v
    pure (some (.new head.info v))
  | .computed amount => do
    let n ← PassM.amount ctx amount
    PassM.register head.info (.long n)
    pure (some (.new head.info (.long n)))
  | .align a => do
    let n ← PassM.alignment ctx a
    PassM.onStream (Reader.align n)
    pure none
  | .skip a => do
    let n ← PassM.skipCount ctx a
    PassM.onStream (Reader.skipBytes n)
    pure none
  | .reset => do
    PassM.onStream Reader.reset
    pure none

/-- The record ends before a part of the layout that holds values, or does not. -/
def endsBefore (ctx : PassContext) (holdsValue : Bool) : PassM Reader Bool :=
  if ctx.options.lenient && holdsValue then PassM.onStream Reader.isExhausted else pure false

/-- One structure of an array, from what its body gives. -/
def Step.ofBody : List Field × Flow → Step Value
  | (fields, .goOn) => .next (.struct fields)
  | (fields, .stop) => .last (if fields.isEmpty then none else some (.struct fields))

/-- The fewest bits that a structure of an unbounded array is taken to need. -/
def leastBits (certain : Nat) : Nat := min (max certain 1) 0xFFFFFFFF

/-- A structure or an array of them, whose body certainly takes a number of bits. -/
def group (ctx : PassContext) (head : Header) (length : Option Length) (certain : Nat)
    (body : PassM Reader (List Field × Flow)) : PassM Reader (Value × Flow) :=
  match length with
  | none => do
    let (fields, flow) ← body
    pure (.struct fields, flow)
  | some length => do
    let count ← PassM.arrayCount ctx length
    let (items, flow) ← elements ctx (leastBits certain)
      (.idleStructure (head.describe Kind.opening.name)) (Step.ofBody <$> body) count
    pure (.list items, flow)

/-- The fields of a layout. -/
def fields (ctx : PassContext) : Layout → PassM Reader (List Field × Flow)
  | .done => pure ([], .goOn)
  | .item head decl rest => do
    if ← endsBefore ctx decl.kind.holdsValue then pure ([], .stop)
    else
      let node ← item ctx head decl
      let (more, flow) ← fields ctx rest
      pure (node.toList ++ more, flow)
  | .group head length body _ rest => do
    if ← endsBefore ctx body.holdsValue then pure ([], .stop)
    else
      let (v, flow) ← group ctx head length body.certainBits (fields ctx body)
      match flow with
      | .stop => pure ([.new head.info v], .stop)
      | .goOn =>
        let (more, flow) ← fields ctx rest
        pure (.new head.info v :: more, flow)

/-- A whole record: the tree under an unnamed root. -/
def record (ctx : PassContext) (layout : Layout) : PassM Reader Field := do
  let (found, _) ← fields ctx layout
  pure (.unnamed (.struct found))

end Decode

end RecordLayout
