import RecordLayout.Proofs.Value.Nested

/-!
# Trees that are cut off

A tree is cut off at one place of its document order: the fields before the place stay, the fields
that the place lies below keep what they have before it, and the others are gone. An element of an
array of structures that would be left without a field is gone as well.
-/

namespace RecordLayout

mutual

/-- The first value is the second one, cut off below it. -/
inductive Value.Truncates : Value → Value → Prop
  | struct {fields fields' : List Field} (inside : Fields.Truncates fields fields') :
      Value.Truncates (.struct fields) (.struct fields')
  | list {items items' : List Value} (inside : Elements.Truncates items items') :
      Value.Truncates (.list items) (.list items')

/-- The first fields are the second ones, cut off before or below one of them. -/
inductive Fields.Truncates : List Field → List Field → Prop
  | before {f : Field} {rest : List Field} : Fields.Truncates [] (f :: rest)
  | under {f : Field} {v : Value} {rest : List Field} (inside : Value.Truncates v f.value) :
      Fields.Truncates [{ f with value := v }] (f :: rest)
  | behind {f : Field} {rest rest' : List Field} (later : Fields.Truncates rest rest') :
      Fields.Truncates (f :: rest) (f :: rest')

/-- The first elements are the second ones, cut off inside one of them. -/
inductive Elements.Truncates : List Value → List Value → Prop
  /-- Nothing is left of the element. -/
  | dropped {f : Field} {fields : List Field} {rest : List Value} :
      Elements.Truncates [] (.struct (f :: fields) :: rest)
  | inside {f : Field} {fields fields' : List Field} {rest : List Value}
      (one : Fields.Truncates (f :: fields) fields') :
      Elements.Truncates [.struct (f :: fields)] (.struct fields' :: rest)
  | behind {v : Value} {rest rest' : List Value} (later : Elements.Truncates rest rest') :
      Elements.Truncates (v :: rest) (v :: rest')

end

/-- The first tree is the second one, cut off below its root. -/
def Field.Truncates (f f' : Field) : Prop :=
  Value.Truncates f.value f'.value ∧ f = { f' with value := f.value }

mutual

/-- What is cut off is not what it was. -/
theorem Value.Truncates.ne {v v' : Value} (h : Value.Truncates v v') : v ≠ v' := by
  cases h with
  | struct inside => exact fun heq => inside.ne (Value.struct.inj heq)
  | list inside => exact fun heq => inside.ne (Value.list.inj heq)

/-- Nodes that were cut off are not those that were there. -/
theorem Fields.Truncates.ne {fields fields' : List Field} (h : Fields.Truncates fields fields') :
    fields ≠ fields' := by
  cases h with
  | before => nofun
  | under inside => exact fun heq => inside.ne (congrArg Field.value (List.cons.inj heq).1)
  | behind later => exact fun heq => later.ne (List.cons.inj heq).2

theorem Elements.Truncates.ne {items items' : List Value} (h : Elements.Truncates items items') :
    items ≠ items' := by
  cases h with
  | dropped => nofun
  | inside one => exact fun heq => one.ne (Value.struct.inj (List.cons.inj heq).1)
  | behind later => exact fun heq => later.ne (List.cons.inj heq).2

end

/-- Fields behind others are cut off. -/
theorem Fields.Truncates.append (fields : List Field) {rest rest' : List Field}
    (h : Fields.Truncates rest rest') : Fields.Truncates (fields ++ rest) (fields ++ rest') := by
  induction fields with
  | nil => exact h
  | cons f fields ih => exact .behind ih

mutual

/-- The fields that are left of a value are, in document order, the first of those that were below
it. -/
theorem Value.Truncates.nested_prefix {v v' : Value} (h : Value.Truncates v v') :
    v.nested.map Field.info <+: v'.nested.map Field.info := by
  cases h with
  | struct inside => exact inside.nested_prefix
  | list inside => exact inside.nested_prefix

/-- The names of the nodes that are left come first among all names. -/
theorem Fields.Truncates.nested_prefix {fields fields' : List Field}
    (h : Fields.Truncates fields fields') :
    (Value.nestedFields fields).map Field.info <+: (Value.nestedFields fields').map Field.info := by
  cases h with
  | before => exact List.nil_prefix
  | @under f v rest inside =>
    have hprefix := inside.nested_prefix.trans
      (List.prefix_append _ ((Value.nestedFields rest).map Field.info))
    simpa [Value.nestedFields_cons, Value.nestedFields] using hprefix
  | behind later => simpa [Value.nestedFields_cons] using later.nested_prefix

theorem Elements.Truncates.nested_prefix {items items' : List Value}
    (h : Elements.Truncates items items') :
    (Value.nestedItems items).map Field.info <+: (Value.nestedItems items').map Field.info := by
  cases h with
  | dropped => exact List.nil_prefix
  | @inside f fields fields' rest one =>
    have hprefix := one.nested_prefix.trans
      (List.prefix_append _ ((Value.nestedItems rest).map Field.info))
    simpa [Value.nestedItems] using hprefix
  | @behind v rest rest' later =>
    cases v with
    | struct fields => simpa [Value.nestedItems] using later.nested_prefix
    | _ => exact later.nested_prefix

end

end RecordLayout
