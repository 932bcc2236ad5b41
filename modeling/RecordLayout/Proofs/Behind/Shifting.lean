import RecordLayout.Layout.Element
import RecordLayout.Layout.Scope

/-!
# Layouts further back

A layout that stands further back in a document has later indexes: those of its declarations, and in
its expressions those of the fields that it refers to. Nothing else in it depends on where it
stands. The fields that a pass gives for it have the same names, with the later indexes.
-/

namespace RecordLayout

/-! ## Names and expressions -/

/-- The name with its index further back. -/
def FieldInfo.shift (k : Nat) (info : FieldInfo) : FieldInfo :=
  { info with index := k + info.index }

@[simp] theorem FieldInfo.shift_zero (info : FieldInfo) : info.shift 0 = info := by
  rw [shift, Nat.zero_add]

/-- The declared name with its index further back. -/
def Declared.shift (k : Nat) (d : Declared) : Declared := { d with info := d.info.shift k }

@[simp] theorem Declared.shift_zero (d : Declared) : d.shift 0 = d := by
  rw [shift, FieldInfo.shift_zero]

namespace Expr

/-- The expression with the fields that it refers to further back. -/
def shift (k : Nat) : Expr → Expr
  | const v => const v
  | field info => field (info.shift k)
  | external name => external name
  | counter => counter
  | unary op e => unary op (e.shift k)
  | binary op l r => binary op (l.shift k) (r.shift k)

@[simp] theorem shift_zero (e : Expr) : e.shift 0 = e := by
  induction e with
  | const | external | counter => rfl
  | field info => rw [shift, FieldInfo.shift_zero]
  | unary op e ih => rw [shift, ih]
  | binary op l r ihl ihr => rw [shift, ihl, ihr]

theorem shift_eq_const {k : Nat} {e : Expr} {v : Int64} : e.shift k = const v ↔ e = const v := by
  cases e <;> simp [shift]

/-- Constants have no fields, so the same is folded. -/
theorem foldUnary_shift (k : Nat) (op : UnaryOp) (e : Expr) :
    foldUnary op (e.shift k) = (foldUnary op e).shift k := by
  cases e <;> rfl

/-- Operators are folded before or after the fields are moved, with the same result. -/
theorem foldBinary_shift (k : Nat) (op : BinaryOp) (l r : Expr) :
    foldBinary op (l.shift k) (r.shift k) = (foldBinary op l r).map (shift k) := by
  unfold foldBinary
  simp only [shift_eq_const]
  split
  · rfl
  · cases l with
    | const a =>
      cases r with
      | const b => simp only [shift, Option.map_map]; rfl
      | _ => rfl
    | _ => rfl

end Expr

/-! ## Declarations -/

/-- The parameter with the fields that it refers to further back. -/
def Amount.shift (k : Nat) : Amount → Amount
  | const n => const n
  | computed e => computed (e.shift k)

/-- The length with the fields that it refers to further back. -/
def Length.shift (k : Nat) : Length → Length
  | const n => const n
  | computed e => computed (e.shift k)
  | unbounded => unbounded

@[simp] theorem Amount.shift_zero (a : Amount) : a.shift 0 = a := by
  cases a <;> simp [shift]

@[simp] theorem Length.shift_zero (l : Length) : l.shift 0 = l := by
  cases l <;> simp [shift]

/-- The declaration further back. -/
def Header.shift (k : Nat) (head : Header) : Header :=
  { head with index := k + head.index, info := head.info.map (FieldInfo.shift k) }

@[simp] theorem Header.shift_zero (head : Header) : head.shift 0 = head := by
  rcases head with ⟨index, info, order, position⟩
  cases info <;> simp [shift]

namespace ElementType

/-- The type with the fields that it refers to further back. -/
def shift (k : Nat) : ElementType → ElementType
  | fixed type => fixed type
  | bit width => bit (width.shift k)
  | text => text
  | custom use extra => custom use (extra.map (Amount.shift k))

@[simp] theorem shift_zero (type : ElementType) : type.shift 0 = type := by
  cases type with
  | fixed | text => rfl
  | bit width => rw [shift, Amount.shift_zero]
  | custom use extra => cases extra <;> simp [shift]

variable (k : Nat) (type : ElementType)

@[simp] theorem kind_shift : (type.shift k).kind = type.kind := by cases type <;> rfl

@[simp] theorem isByte_shift : (type.shift k).isByte = type.isByte := by
  cases type with
  | fixed type => cases type <;> rfl
  | bit | text | custom => rfl

@[simp] theorem leastBits_shift (width : Nat) :
    (type.shift k).leastBits width = type.leastBits width := by cases type <;> rfl

end ElementType

namespace Decl

/-- The declaration with the fields that it refers to further back. -/
def shift (k : Nat) : Decl → Decl
  | value type length => value (type.shift k) (length.map (Length.shift k))
  | computed amount => computed (amount.shift k)
  | align n => align (n.shift k)
  | skip n => skip (n.shift k)
  | reset => reset

@[simp] theorem shift_zero (decl : Decl) : decl.shift 0 = decl := by
  cases decl with
  | value type length => cases length <;> simp [shift]
  | _ => simp [shift]

variable (k : Nat) (decl : Decl)

@[simp] theorem length_shift : (decl.shift k).length = decl.length.map (Length.shift k) := by
  cases decl <;> rfl

end Decl

/-- An array is unbounded wherever it stands. -/
theorem Length.shift_unbounded {k : Nat} {length : Option Length} :
    length.map (shift k) = some .unbounded ↔ length = some .unbounded := by
  cases length with
  | none => simp
  | some l => cases l <;> simp [shift]

theorem Layout.certainCount_shift (k : Nat) (length : Option Length) :
    certainCount (length.map (Length.shift k)) = certainCount length := by
  cases length with
  | none => rfl
  | some l => cases l <;> rfl

/-- What a declaration certainly takes does not depend on where its fields stand. -/
theorem Decl.certainBits_shift (k : Nat) (decl : Decl) :
    (decl.shift k).certainBits = decl.certainBits := by
  cases decl with
  | value type length =>
    cases type with
    | bit width => cases width <;> rfl
    | fixed | text | custom => rfl
  | skip n => cases n <;> rfl
  | computed | align | reset => rfl

/-! ## Layouts -/

namespace Layout

/-- The layout further back. -/
def shift (k : Nat) : Layout → Layout
  | done => done
  | item head decl rest => item (head.shift k) (decl.shift k) (rest.shift k)
  | group head length body closing rest =>
    group (head.shift k) (length.map (Length.shift k)) (body.shift k) closing (rest.shift k)

@[simp] theorem shift_zero (l : Layout) : l.shift 0 = l := by
  induction l with
  | done => rfl
  | item head decl rest ih => rw [shift, Header.shift_zero, Decl.shift_zero, ih]
  | group head length body closing rest ihbody ihrest =>
    rw [shift, Header.shift_zero, ihbody, ihrest]
    cases length <;> simp

theorem shift_append (n : Nat) (k l : Layout) : (k ++ l).shift n = k.shift n ++ l.shift n := by
  induction k with
  | done => rfl
  | item head decl rest ih => rw [item_append, shift, shift, item_append, ih]
  | group head length body closing rest _ ih => rw [group_append, shift, shift, group_append, ih]

/-- What a layout certainly takes does not depend on where it stands. -/
@[simp] theorem certainBits_shift (k : Nat) (l : Layout) :
    (l.shift k).certainBits = l.certainBits := by
  induction l with
  | done => rfl
  | item head decl rest ih =>
    rw [shift, certainBits, certainBits, Decl.length_shift, certainCount_shift,
      Decl.certainBits_shift, ih]
  | group head length body closing rest ihbody ihrest =>
    rw [shift, certainBits, certainBits, certainCount_shift, ihbody, ihrest]

end Layout

/-! ## Fields -/

namespace Value

mutual

/-- The value with the names in it further back. -/
def shift (k : Nat) : Value → Value
  | struct fields => struct (shiftFields k fields)
  | list items => list (shiftItems k items)
  | v => v

/-- The fields with their names, and the names in them, further back. -/
def shiftFields (k : Nat) : List Field → List Field
  | [] => []
  | ⟨info, v, payload⟩ :: rest =>
    ⟨info.map (FieldInfo.shift k), shift k v, payload⟩ :: shiftFields k rest

/-- The elements with the names in them further back. -/
def shiftItems (k : Nat) : List Value → List Value
  | [] => []
  | v :: rest => shift k v :: shiftItems k rest

end

end Value

/-- The field with its name, and the names in it, further back. -/
def Field.shift (k : Nat) (f : Field) : Field :=
  { f with info := f.info.map (FieldInfo.shift k), value := f.value.shift k }

namespace Value

variable (k : Nat)

/-- The fields of a structure are moved one by one. -/
theorem shiftFields_eq (fields : List Field) :
    shiftFields k fields = fields.map (Field.shift k) := by
  induction fields with
  | nil => rfl
  | cons f rest ih =>
    rcases f with ⟨info, v, payload⟩
    rw [shiftFields, ih, List.map_cons]
    rfl

theorem shiftItems_eq (items : List Value) : shiftItems k items = items.map (shift k) := by
  induction items with
  | nil => rfl
  | cons v rest ih => rw [shiftItems, ih, List.map_cons]

@[simp] theorem shift_struct (fields : List Field) :
    (struct fields).shift k = struct (fields.map (Field.shift k)) := by
  rw [shift, shiftFields_eq]

@[simp] theorem shift_list (items : List Value) :
    (list items).shift k = list (items.map (shift k)) := by
  rw [shift, shiftItems_eq]

@[simp] theorem asInt_shift (v : Value) : (v.shift k).asInt = v.asInt := by cases v <;> rfl

end Value

/-- There are no names in the value of a number. -/
theorem FixedType.shift_ofNumber {k : Nat} {type : FixedType} {n : Nat} {v : Value}
    (h : type.ofNumber n = .ok v) : v.shift k = v := by
  cases type with
  | bool =>
    simp only [FixedType.ofNumber] at h
    split at h
    · cases h
      rfl
    · split at h
      · cases h
        rfl
      · cases h
  | _ =>
    cases h
    rfl

end RecordLayout
