import RecordLayout.Proofs.Table.Lookup
import RecordLayout.Proofs.Watched.Decode
import RecordLayout.Proofs.Watched.Encode

/-!
# Passes over blocks

A pass over a block goes through the entries by their indexes and looks up what they refer to as it
goes; a structure array goes through the entries between its braces once for each element. Where
something is not in its table, where a brace has no partner, where a custom type has no handler, the
pass stops with a fault.

Over the block of a compiled layout a pass does what the pass over the layout does.
-/

namespace RecordLayout

/-- What was looked up, in an operation. -/
def found {τ α : Type} : Except Fault α → CheckedM τ α
  | .ok x => pure x
  | .error f => fault f

theorem found_bind {τ α β : Type} {lookup : Except Fault α} {x : α} (h : lookup = .ok x)
    (g : α → CheckedM τ β) : found lookup >>= g = g x := by
  rw [h]
  rfl

namespace Block

/-! ## Reading -/

/-- Reads an entry that opens no structure, and what is behind it. -/
def readLeaf (b : Block) (ctx : PassContext) (index : Nat) (d : Descriptor)
    (behind : WatchedM Reader (List Field × Flow)) : WatchedM Reader (List Field × Flow) := do
  let holds ← found (b.holdsValue index d)
  if ← Decode.Watched.endsBefore ctx holds then pure ([], .stop)
  else
    let head ← found (b.header index d)
    if d.kind = .closing then behind
    else
      let decl ← found (b.decl d)
      let node ← Decode.Watched.item ctx head decl
      let (more, flow) ← behind
      pure (node.toList ++ more, flow)

/-- Reads a structure or an array of them, and what is behind it. -/
def readNode (b : Block) (ctx : PassContext) (index close : Nat) (d : Descriptor)
    (inside behind : WatchedM Reader (List Field × Flow)) :
    WatchedM Reader (List Field × Flow) := do
  let holds ← found (b.holdsValue index d)
  if ← Decode.Watched.endsBefore ctx holds then pure ([], .stop)
  else
    let head ← found (b.header index d)
    let length ← found (b.length d.length)
    let certain ← found (b.certainBits (index + 1) close)
    let (v, flow) ← Decode.Watched.group ctx head length certain inside
    match flow with
    | .stop => pure ([.new head.info v], .stop)
    | .goOn =>
      let (more, flow) ← behind
      pure (.new head.info v :: more, flow)

/-- Reads the entries from one index up to another. -/
def readRange (b : Block) (ctx : PassContext) :
    (start stop : Nat) → WatchedM Reader (List Field × Flow) :=
  b.walk fault (pure ([], .goOn)) (b.readLeaf ctx) (b.readNode ctx)

/-- Reads a whole record. -/
def readRecord (b : Block) (ctx : PassContext) : WatchedM Reader Field := do
  let (fields, _) ← b.readRange ctx 0 b.descriptors.length
  pure (.unnamed (.struct fields))

/-! ## Writing -/

/-- Writes an entry that opens no structure, and what is behind it. -/
def writeLeaf (b : Block) (ctx : PassContext) (index : Nat) (d : Descriptor)
    (behind : WatchedM Feed Flow) : WatchedM Feed Flow := do
  let holds ← found (b.holdsValue index d)
  if ← Encode.Watched.endsBefore ctx holds then pure .stop
  else
    let head ← found (b.header index d)
    if d.kind = .closing then behind
    else
      let decl ← found (b.decl d)
      Encode.Watched.item ctx head decl
      behind

/-- Writes a structure or an array of them, and what is behind it. -/
def writeNode (b : Block) (ctx : PassContext) (index _close : Nat) (d : Descriptor)
    (inside behind : WatchedM Feed Flow) : WatchedM Feed Flow := do
  let holds ← found (b.holdsValue index d)
  if ← Encode.Watched.endsBefore ctx holds then pure .stop
  else
    let head ← found (b.header index d)
    let length ← found (b.length d.length)
    match ← Encode.Watched.group ctx head length inside with
    | .stop => pure .stop
    | .goOn => behind

/-- Writes the entries from one index up to another. -/
def writeRange (b : Block) (ctx : PassContext) : (start stop : Nat) → WatchedM Feed Flow :=
  b.walk fault (pure .goOn) (b.writeLeaf ctx) (b.writeNode ctx)

/-- Writes a whole record: every item has to be written. -/
def writeRecord (b : Block) (ctx : PassContext) : WatchedM Feed Unit := do
  let _ ← b.writeRange ctx 0 b.descriptors.length
  let items ← Encode.Watched.remaining
  if items.isEmpty then Encode.Watched.onWriter (plainly Writer.finish)
  else raise (.leftOver items.length)

/-! ## Passes over the block of a layout -/

variable (ctx : PassContext) {b : Block} {n : Nat} {num : ListingNumbers} {seen : List Declared}
  {l : Layout}

/-- The pass over a range of the block is the pass over its layout. -/
theorem readRange_eq (h : b.Stands n num seen l) :
    b.readRange ctx n (n + l.size) = Decode.Watched.fields ctx l := by
  refine Stands.walk_eq (f := Decode.Watched.fields ctx) rfl
    (fun {n num seen head decl rest} h => ?_)
    (fun {n num seen head length body closing rest} h => ?_) h
  · rw [readLeaf, found_bind Stands.item_holdsValue, found_bind h.item_header,
      if_neg (Layout.itemEntry_kind num head decl).2, found_bind h.item_decl]
    rfl
  · rw [readNode, found_bind h.group_holdsValue, found_bind (h.group_header _),
      found_bind (h.group_length _), Nat.add_right_comm, found_bind h.group_body.certainBits_eq]
    rfl

theorem writeRange_eq (h : b.Stands n num seen l) :
    b.writeRange ctx n (n + l.size) = Encode.Watched.fields ctx l := by
  refine Stands.walk_eq (f := Encode.Watched.fields ctx) rfl
    (fun {n num seen head decl rest} h => ?_)
    (fun {n num seen head length body closing rest} h => ?_) h
  · rw [writeLeaf, found_bind Stands.item_holdsValue, found_bind h.item_header,
      if_neg (Layout.itemEntry_kind num head decl).2, found_bind h.item_decl]
    rfl
  · rw [writeNode, found_bind h.group_holdsValue, found_bind (h.group_header _),
      found_bind (h.group_length _)]
    rfl

variable {handlers : List CustomType}

/-- Reading over the block of a layout is reading over the layout. -/
theorem readRecord_block (h : l.Scoped handlers 0 []) :
    (l.block handlers).readRecord ctx = Decode.Watched.record ctx l := by
  have hrange := readRange_eq ctx (Layout.stands_block h)
  have hsize : (l.block handlers).descriptors.length = l.size := l.length_descriptors
  rw [Nat.zero_add] at hrange
  rw [readRecord, hsize, hrange]
  rfl

/-- Writing over the block of a layout is writing over the layout. -/
theorem writeRecord_block (h : l.Scoped handlers 0 []) :
    (l.block handlers).writeRecord ctx = Encode.Watched.record ctx l := by
  have hrange := writeRange_eq ctx (Layout.stands_block h)
  have hsize : (l.block handlers).descriptors.length = l.size := l.length_descriptors
  rw [Nat.zero_add] at hrange
  rw [writeRecord, hsize, hrange]
  rfl

end Block

end RecordLayout
