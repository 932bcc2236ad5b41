import RecordLayout.Value.Basic

/-!
# Searching and editing trees

The fields below a value are those of a structure, or of each structure in a list. A walk visits
them in document order, every field before the fields below it; a search returns the first field of
that walk with the wanted name. An edit follows child indexes, through structures to the value of a
field and through lists to an element.
-/

namespace RecordLayout

namespace Value

mutual

/-- Every named field below a value, with its path. -/
def walk : Value → List (String × Value)
  | struct fields => walkFields fields
  | list items => walkItems items
  | _ => []

/-- Every named field among these and below them. -/
def walkFields : List Field → List (String × Value)
  | [] => []
  | ⟨info, value, _⟩ :: rest =>
    (match info with
      | some info => (info.path, value) :: walk value
      | none => walk value) ++ walkFields rest

/-- Every named field in or below the structures among these elements. -/
def walkItems : List Value → List (String × Value)
  | [] => []
  | struct fields :: rest => walkFields fields ++ walkItems rest
  | _ :: rest => walkItems rest

end

mutual

/-- The first field below a value with the property. -/
def find? (p : Field → Bool) : Value → Option Field
  | struct fields => findField? p fields
  | list items => findItem? p items
  | _ => none

/-- The first field with the property among these and below them. -/
def findField? (p : Field → Bool) : List Field → Option Field
  | [] => none
  | ⟨info, value, payload⟩ :: rest =>
    if p ⟨info, value, payload⟩ then some ⟨info, value, payload⟩
    else
      match find? p value with
      | some found => some found
      | none => findField? p rest

/-- The first field with the property in or below the structures among these elements. -/
def findItem? (p : Field → Bool) : List Value → Option Field
  | [] => none
  | struct fields :: rest =>
    match findField? p fields with
    | some found => some found
    | none => findItem? p rest
  | _ :: rest => findItem? p rest

end

/-- A structure or list without its child `i`. -/
def deleteChild (i : Nat) : Value → Value
  | struct fields => struct (fields.eraseIdx i)
  | list items => list (items.eraseIdx i)
  | v => v

/-- A structure with one more field. -/
def pushField (f : Field) : Value → Value
  | struct fields => struct (fields ++ [f])
  | v => v

/-- A list with one more element. -/
def pushItem (item : Value) : Value → Value
  | list items => list (items ++ [item])
  | v => v

/-- A list in which the entries `i` and `j`, if there are both, have changed places. -/
def exchange {α : Type} (xs : List α) (i j : Nat) : List α :=
  match xs[i]?, xs[j]? with
  | some x, some y => (xs.set i y).set j x
  | _, _ => xs

/-- A structure or list with the children `i` and `j` exchanged. -/
def swapChildren (i j : Nat) : Value → Value
  | struct fields => struct (exchange fields i j)
  | list items => list (exchange items i j)
  | v => v

/-- A tree with the value at a path of child indexes replaced; without such a value it stays. -/
def modifyAt (change : Value → Value) : (path : List Nat) → Value → Value
  | [], v => change v
  | i :: path, struct fields =>
    struct (fields.modify i fun f => { f with value := modifyAt change path f.value })
  | i :: path, list items => list (items.modify i (modifyAt change path))
  | _ :: _, v => v

end Value

namespace Field

/-- The first field below this one with the path. -/
def find? (f : Field) (path : String) : Option Field :=
  f.value.find? (·.path == some path)

/-- The first field below this one with the short name. -/
def findByName? (f : Field) (name : String) : Option Field :=
  f.value.find? (·.name == some name)

/-- Every named field below this one, with its path. -/
def walk (f : Field) : List (String × Value) := f.value.walk

/-- The tree with the value at a path of child indexes replaced. -/
def modifyAt (change : Value → Value) (path : List Nat) (f : Field) : Field :=
  { f with value := f.value.modifyAt change path }

end Field

end RecordLayout
