import RecordLayout.Value.Tree

/-!
# The fields below a value

A walk and a search both go through the fields below a value in document order. Here these fields
are a list: the walk takes the named ones from it, the search the first one with the property.
-/

namespace RecordLayout

namespace Value

mutual

/-- The fields below a value, every field before the fields below it. -/
def nested : Value → List Field
  | struct fields => nestedFields fields
  | list items => nestedItems items
  | _ => []

/-- These fields and the ones below them. -/
def nestedFields : List Field → List Field
  | [] => []
  | ⟨info, value, payload⟩ :: rest => ⟨info, value, payload⟩ :: (nested value ++ nestedFields rest)

/-- The fields in the structures among these elements and the ones below them. -/
def nestedItems : List Value → List Field
  | [] => []
  | struct fields :: rest => nestedFields fields ++ nestedItems rest
  | _ :: rest => nestedItems rest

end

end Value

/-- What a walk says about a field: its path and value, if it has a name. -/
def Field.entry (f : Field) : Option (String × Value) :=
  f.info.map fun info => (info.path, f.value)

namespace Value

mutual

/-- A walk gives the named fields below the value. -/
theorem walk_eq (v : Value) : v.walk = v.nested.filterMap Field.entry := by
  cases v with
  | struct fields => exact walkFields_eq fields
  | list items => exact walkItems_eq items
  | _ => rfl

/-- A walk over nodes gives the named ones among them and below them. -/
theorem walkFields_eq (fields : List Field) :
    walkFields fields = (nestedFields fields).filterMap Field.entry := by
  match fields with
  | [] => rfl
  | ⟨info, value, payload⟩ :: rest =>
    have hvalue := walk_eq value
    have hrest := walkFields_eq rest
    cases info with
    | none =>
      simp only [walkFields, nestedFields, List.filterMap_cons, List.filterMap_append, Field.entry,
        Option.map_none, hvalue, hrest]
    | some info =>
      simp only [walkFields, nestedFields, List.filterMap_cons, List.filterMap_append, Field.entry,
        Option.map_some, hvalue, hrest, List.cons_append]

theorem walkItems_eq (items : List Value) :
    walkItems items = (nestedItems items).filterMap Field.entry := by
  match items with
  | [] => rfl
  | item :: rest =>
    have hrest := walkItems_eq rest
    cases item with
    | struct fields =>
      rw [walkItems, nestedItems, List.filterMap_append, walkFields_eq fields, hrest]
    | _ => exact hrest

end

section

variable (p : Field → Bool)

mutual

/-- A search gives the first field below the value with the property. -/
theorem find?_eq (v : Value) : v.find? p = v.nested.find? p := by
  cases v with
  | struct fields => exact findField?_eq fields
  | list items => exact findItem?_eq items
  | _ => rfl

/-- A search among nodes finds the first of those and of what is below them. -/
theorem findField?_eq (fields : List Field) :
    findField? p fields = (nestedFields fields).find? p := by
  match fields with
  | [] => rfl
  | ⟨info, value, payload⟩ :: rest =>
    have hvalue := find?_eq value
    have hrest := findField?_eq rest
    rw [findField?, nestedFields, hvalue, hrest, List.find?_cons, List.find?_append]
    cases p ⟨info, value, payload⟩
    · cases value.nested.find? p <;> rfl
    · rfl

theorem findItem?_eq (items : List Value) : findItem? p items = (nestedItems items).find? p := by
  match items with
  | [] => rfl
  | item :: rest =>
    have hrest := findItem?_eq rest
    cases item with
    | struct fields =>
      rw [findItem?, nestedItems, findField?_eq fields, hrest, List.find?_append]
      cases (nestedFields fields).find? p <;> rfl
    | _ => exact hrest

end

end

theorem nestedFields_cons (f : Field) (rest : List Field) :
    nestedFields (f :: rest) = f :: (f.value.nested ++ nestedFields rest) := by
  rcases f with ⟨info, value, payload⟩
  rw [nestedFields]

end Value

namespace Field

/-- If one field below a field has a path, then a walk visits the path once, with the value of that
field, and a search for the path finds the field. -/
theorem walk_and_find?_of_once {f node : Field} {info : FieldInfo}
    (hinfo : node.info = some info)
    (honce : f.value.nested.filter (·.path == some info.path) = [node]) :
    f.walk.filter (·.1 == info.path) = [(info.path, node.value)] ∧
      f.find? info.path = some node := by
  constructor
  · -- the entries with the path are those of the fields with the path
    have hentry : ∀ fields : List Field,
        (fields.filterMap entry).filter (·.1 == info.path) =
          (fields.filter (·.path == some info.path)).filterMap entry := by
      intro fields
      induction fields with
      | nil => rfl
      | cons g rest ih =>
        rcases g with ⟨name, value, payload⟩
        cases name with
        | none => simpa [List.filterMap_cons, entry, path] using ih
        | some name =>
          by_cases hpath : name.path = info.path
          · simpa [List.filterMap_cons, entry, path, hpath] using ih
          · simpa [List.filterMap_cons, entry, path, hpath] using ih
    have hnode : entry node = some (info.path, node.value) := by rw [entry, hinfo, Option.map_some]
    rw [walk, Value.walk_eq, hentry, honce, List.filterMap_cons_some hnode, List.filterMap_nil]
  · have hhead := congrArg List.head? honce
    rw [List.head?_filter] at hhead
    rw [find?, Value.find?_eq]
    exact hhead

end Field

end RecordLayout
