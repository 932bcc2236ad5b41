import RecordLayout.Pass.Items
import RecordLayout.Proofs.Layout.Element
import RecordLayout.Proofs.Pass.Parameters

/-!
# The records of a layout

What a layout says about a stream of bits, with neither reader nor writer in it. A record is a
sequence of pieces, in the order of the declarations they belong to: values with the bits that spell
them, bits that a directive passes over, and the marks that structure arrays leave between them.
`Layout.Spells` relates the fields that a record holds to its pieces. Reading and writing are shown
to be the two directions of this relation.

A record of a lenient pass may end before any declaration that holds a value; there is no place
behind it then. What directives pass over in a structure that ends before its first value, or in an
element of an array that ends before its first field, is in no field and stands before no value:
these bits are lost.
-/

namespace RecordLayout

/-! ## Places -/

/-- What the parameters of the next declaration depend on. -/
structure Place where
  numbers : Numbers
  /-- The bits since the last reset. -/
  position : Nat

namespace Place

/-- The front of a record. -/
def start : Place := ⟨.empty, 0⟩

/-- What an expression is evaluated in. A byte counts from its first bit on. -/
def env (ctx : PassContext) (p : Place) : Expr.Env :=
  ⟨p.numbers, .ofNat ((p.position + 7) / 8), ctx.resolver⟩

/-- The place behind a number of bits. -/
def advance (p : Place) (bits : Nat) : Place := { p with position := p.position + bits }

/-- The place behind a value, which counts from now on if it is named and an integer. -/
def note (p : Place) (info : Option FieldInfo) (v : Value) : Place :=
  match info, v.asInt with
  | some info, some n => { p with numbers := p.numbers.put info.index n }
  | _, _ => p

@[simp] theorem note_position (p : Place) (info : Option FieldInfo) (v : Value) :
    (p.note info v).position = p.position := by
  unfold note
  split <;> rfl

end Place

/-- Registering a value makes it count for the place. -/
theorem PassM.register_of_numbers {δ : Type} {p : Place} {s : PassState δ}
    (h : s.numbers = p.numbers) (info : Option FieldInfo) (v : Value) :
    ∃ s', PassM.register info v s = .ok () s' ∧ s'.numbers = (p.note info v).numbers ∧
      s'.stream = s.stream := by
  cases info with
  | none => exact ⟨s, rfl, h, rfl⟩
  | some info =>
    cases hint : v.asInt with
    | none =>
      refine ⟨s, ?_, ?_, rfl⟩
      · simp only [PassM.register, hint]
        rfl
      · simpa only [Place.note, hint] using h
    | some n =>
      refine ⟨{ s with numbers := s.numbers.put info.index n }, ?_, ?_, rfl⟩
      · simp only [PassM.register, hint]
        rfl
      · simp only [Place.note, hint, h]

/-! ## Slots and pieces -/

/-- Where a value is spelled: a single value or an array, for a known bit width. -/
structure Slot where
  order : ByteOrder
  type : ElementType
  width : Nat
  array : Bool

namespace Slot

/-- The values that a read of the slot can give. -/
def Fits (s : Slot) (v : Value) : Prop :=
  match s.array, s.type.isByte with
  | false, _ => s.type.Fits s.width v
  | true, true => ∃ bs, v = .bytes bs
  | true, false => ∃ items, v = .list items ∧ ∀ x ∈ items, s.type.Fits s.width x

/-- The bits of a value that fits. -/
def spell (s : Slot) (v : Value) : List Bool :=
  match s.array, v with
  | true, .bytes bs => Bits.ofBytes bs
  | true, .list items => items.flatMap fun x => s.type.spell s.order s.width x
  | _, v => s.type.spell s.order s.width v

/-- A supplied value in the form of the slot: every scalar in the form of its type, and an array of
single bytes as a byte string. -/
def normalize (s : Slot) (v : Value) : Option Value :=
  match s.array, s.type.isByte, v with
  | false, _, v => s.type.normalize s.width v
  | true, true, .bytes bs => some (.bytes bs)
  | true, true, .list items =>
    (items.mapM (s.type.normalize s.width)).map fun items =>
      .bytes (items.map fun x => .ofNat x.number)
  | true, false, .list items => (items.mapM (s.type.normalize s.width)).map .list
  | true, _, _ => none

end Slot

/-- A piece of a record. -/
inductive Piece where
  | value (slot : Slot) (v : Value)
  /-- The number of elements of the structure array that follows. -/
  | elements (count : Nat)
  /-- The end of an unbounded array, whose next element would have needed this many bits. -/
  | ended (least : Nat)
  /-- Bits that a directive passes over. -/
  | passed (bits : List Bool)
  /-- Bits that directives pass over in a structure of which nothing is left. -/
  | lost (bits : List Bool)

namespace Piece

/-- The bits of a piece. -/
def bits : Piece → List Bool
  | value slot v => slot.spell v
  | passed bits => bits
  | lost bits => bits
  | _ => []

/-- The bits that a write gives for a piece. -/
def written : Piece → List Bool
  | value slot v => slot.spell v
  | passed bits => .replicate bits.length false
  | _ => []

/-- The bits that are not lost. -/
def keptBits : Piece → List Bool
  | value slot v => slot.spell v
  | passed bits => bits
  | _ => []

/-- The bits that are lost. -/
def lostBits : Piece → List Bool
  | lost bits => bits
  | _ => []

/-- The bits of a piece that are in no value are all zero. -/
def Blank : Piece → Prop
  | passed bits => ∀ b ∈ bits, b = false
  | lost bits => ∀ b ∈ bits, b = false
  | _ => True

/-- The item that a write takes for a piece. -/
def items : Piece → List Item
  | value _ v => [.value v]
  | elements n => [.elements n]
  | _ => []

/-- The pieces of a structure that the record ends in. -/
def cut (pieces : List Piece) : List Piece :=
  if (pieces.flatMap items).isEmpty then [lost (pieces.flatMap bits)] else pieces

end Piece

/-! ## The relation -/

/-- The pieces of a declaration other than a structure, with the field it gives. -/
inductive Decl.Spells (ctx : PassContext) (head : Header) :
    Decl → Place → Option Field → List Piece → Place → Prop
  | single {type : ElementType} {w : Nat} {v : Value} {p : Place}
      (width : type.width (p.env ctx) = .ok w) (fits : (Slot.mk head.order type w false).Fits v) :
      Decl.Spells ctx head (.value type none) p (some (.new head.info v))
        [.value ⟨head.order, type, w, false⟩ v]
        ((p.advance ((Slot.mk head.order type w false).spell v).length).note head.info v)
  | counted {type : ElementType} {length : Length} {w n : Nat} {v : Value} {p : Place}
      (width : type.width (p.env ctx) = .ok w) (count : ctx.count (p.env ctx) length = .ok (some n))
      (long : v.length? = some n) (fits : (Slot.mk head.order type w true).Fits v) :
      Decl.Spells ctx head (.value type (some length)) p (some (.new head.info v))
        [.value ⟨head.order, type, w, true⟩ v]
        (p.advance ((Slot.mk head.order type w true).spell v).length)
  | unbounded {type : ElementType} {length : Length} {w : Nat} {v : Value} {p : Place}
      (width : type.width (p.env ctx) = .ok w) (count : ctx.count (p.env ctx) length = .ok none)
      (fits : (Slot.mk head.order type w true).Fits v) :
      Decl.Spells ctx head (.value type (some length)) p (some (.new head.info v))
        [.value ⟨head.order, type, w, true⟩ v, .ended (type.leastBits w)]
        (p.advance ((Slot.mk head.order type w true).spell v).length)
  | computed {amount : Amount} {n : Int64} {p : Place}
      (value : amount.value (p.env ctx) = .ok n) :
      Decl.Spells ctx head (.computed amount) p (some (.new head.info (.long n))) []
        (p.note head.info (.long n))
  | align {a : Amount} {n : Nat} {bits : List Bool} {p : Place}
      (multiple : a.alignment (p.env ctx) = .ok n)
      (long : bits.length = Bits.toMultiple p.position n) :
      Decl.Spells ctx head (.align a) p none [.passed bits] (p.advance bits.length)
  | skip {a : Amount} {n : Nat} {bits : List Bool} {p : Place}
      (count : ctx.skipped (p.env ctx) a = .ok n) (long : bits.length = 8 * n) :
      Decl.Spells ctx head (.skip a) p none [.passed bits] (p.advance bits.length)
  | reset {bits : List Bool} {p : Place} (long : bits.length = Bits.toByte p.position) :
      Decl.Spells ctx head .reset p none [.passed bits] { p with position := 0 }

/-- The pieces of structures in a row, for what the body of each may be; `begun` of them have begun.
The record may end in one of them, which is left out if it has no field. -/
inductive Elements.Spells (body : Place → List Field → List Piece → Option Place → Prop) :
    Place → List Value → List Piece → (begun : Nat) → Option Place → Prop
  | nil {p : Place} : Elements.Spells body p [] [] 0 (some p)
  | next {p p₁ : Place} {fields : List Field} {first later : List Piece} {values : List Value}
      {begun : Nat} {place : Option Place} (one : body p fields first (some p₁))
      (rest : Elements.Spells body p₁ values later begun place) :
      Elements.Spells body p (.struct fields :: values) (first ++ later) (begun + 1) place
  | cut {p : Place} {fields : List Field} {pieces : List Piece} (one : body p fields pieces none)
      (any : fields ≠ []) :
      Elements.Spells body p [.struct fields] pieces 1 none
  | dropped {p : Place} {pieces : List Piece} (one : body p [] pieces none) :
      Elements.Spells body p [] [.lost (pieces.flatMap Piece.bits)] 1 none

/-- The pieces of a structure or an array of them, whose body certainly takes a number of bits. -/
inductive Group.Spells (ctx : PassContext) (certain : Nat)
    (body : Place → List Field → List Piece → Option Place → Prop) :
    Option Length → Place → Value → List Piece → Option Place → Prop
  | struct {p p' : Place} {fields : List Field} {pieces : List Piece}
      (one : body p fields pieces (some p')) :
      Group.Spells ctx certain body none p (.struct fields) pieces (some p')
  | cut {p : Place} {fields : List Field} {pieces : List Piece} (one : body p fields pieces none) :
      Group.Spells ctx certain body none p (.struct fields) (Piece.cut pieces) none
  | counted {length : Length} {p : Place} {values : List Value} {pieces : List Piece}
      {n begun : Nat} {place : Option Place} (count : ctx.count (p.env ctx) length = .ok (some n))
      (all : Elements.Spells body p values pieces begun place) (le : begun ≤ n)
      (eq : place.isSome → begun = n) :
      Group.Spells ctx certain body (some length) p (.list values)
        (.elements values.length :: pieces) place
  | unbounded {length : Length} {p : Place} {values : List Value} {pieces : List Piece}
      {begun : Nat} {place : Option Place} (count : ctx.count (p.env ctx) length = .ok none)
      (all : Elements.Spells body p values pieces begun place) :
      Group.Spells ctx certain body (some length) p (.list values)
        (.elements values.length :: (pieces ++ [.ended (min (max certain 1) 0xFFFFFFFF)])) place

/-- The record ends before a part of the layout. -/
def EndsBefore (ctx : PassContext) (holdsValue : Bool) (fields : List Field) (pieces : List Piece)
    (place : Option Place) : Prop :=
  (ctx.options.lenient = true ∧ holdsValue = true) ∧ fields = [] ∧ pieces = [] ∧ place = none

/-- The fields that a layout gives from a place on, the pieces of the record that they are from, and
the place behind them, if the record goes on there. -/
def Layout.Spells (ctx : PassContext) :
    Layout → Place → List Field → List Piece → Option Place → Prop
  | done, p, fields, pieces, place => fields = [] ∧ pieces = [] ∧ place = some p
  | item head decl rest, p, fields, pieces, place =>
    EndsBefore ctx decl.kind.holdsValue fields pieces place ∨
    ∃ node first p₁ more later,
      decl.Spells ctx head p node first p₁ ∧ rest.Spells ctx p₁ more later place ∧
      fields = node.toList ++ more ∧ pieces = first ++ later
  | group head length body _ rest, p, fields, pieces, place =>
    EndsBefore ctx body.holdsValue fields pieces place ∨
    ∃ v first,
      (Group.Spells ctx body.certainBits (body.Spells ctx) length p v first none ∧
        fields = [.new head.info v] ∧ pieces = first ∧ place = none) ∨
      ∃ p₁ more later,
        Group.Spells ctx body.certainBits (body.Spells ctx) length p v first (some p₁) ∧
        rest.Spells ctx p₁ more later place ∧
        fields = .new head.info v :: more ∧ pieces = first ++ later

end RecordLayout
