import RecordLayout.Proofs.Value.Nested

/-!
# What a walk visits

A field below a value has an address: the numbers of the children on the way to it, which leads
through fields and through those elements of arrays that are structures. In document order a field
comes before the fields below it, and what is at or below a child before what is at or below a later
one. A walk visits the named fields in document order, each one once, and a search for a path gives
the field of the first visit of the path (`Field.search_agrees_with_walk`).
-/

namespace RecordLayout

/-- The field stands below the value, at the address. -/
inductive Value.Holds : Value → List Nat → Field → Prop
  | child {fields : List Field} {i : Nat} {f : Field} (at_i : fields[i]? = some f) :
      Value.Holds (.struct fields) [i] f
  | inside {fields : List Field} {i : Nat} {f : Field} {address : List Nat} {g : Field}
      (at_i : fields[i]? = some f) (holds : Value.Holds f.value address g) :
      Value.Holds (.struct fields) (i :: address) g
  | element {items : List Value} {i : Nat} {fields : List Field} {address : List Nat} {g : Field}
      (at_i : items[i]? = some (.struct fields)) (holds : Value.Holds (.struct fields) address g) :
      Value.Holds (.list items) (i :: address) g

/-- The first address comes before the second one in document order. -/
inductive Precedes : List Nat → List Nat → Prop
  /-- A field comes before the fields below it. -/
  | below (address : List Nat) (i : Nat) (more : List Nat) : Precedes address (address ++ i :: more)
  /-- What is at or below a child comes before what is at or below a later one. -/
  | apart (above : List Nat) {i j : Nat} (lt : i < j) (more more' : List Nat) :
      Precedes (above ++ i :: more) (above ++ j :: more')

namespace Precedes

variable {a b : List Nat}

theorem cons (h : Precedes a b) (i : Nat) : Precedes (i :: a) (i :: b) := by
  cases h with
  | below _ j more => exact .below (i :: a) j more
  | apart above hlt more more' => exact .apart (i :: above) hlt more more'

theorem ne (h : Precedes a b) : a ≠ b := by
  cases h with
  | below _ i more => exact fun heq => List.cons_ne_nil i more (List.self_eq_append_right.mp heq)
  | apart above hlt more more' =>
    intro heq
    exact Nat.ne_of_lt hlt (List.cons.inj (List.append_cancel_left heq)).1

end Precedes

/-- A field with its address. -/
structure Visit where
  address : List Nat
  field : Field

namespace Visit

/-- The visit as it is made from further above, where its address begins with a child. -/
def under (i : Nat) (x : Visit) : Visit := ⟨i :: x.address, x.field⟩

/-- The first visit comes before the second one in document order. -/
def Before (x y : Visit) : Prop := Precedes x.address y.address

end Visit

namespace Value

mutual

/-- The fields below a value with their addresses, in document order. -/
def visits : Value → List Visit
  | struct fields => fieldVisits 0 fields
  | list items => itemVisits 0 items
  | _ => []

/-- These fields and the ones below them, the first of which is child `i`. -/
def fieldVisits (i : Nat) : List Field → List Visit
  | [] => []
  | ⟨info, value, payload⟩ :: rest =>
    ⟨[i], ⟨info, value, payload⟩⟩ :: ((visits value).map (.under i) ++ fieldVisits (i + 1) rest)

/-- The fields below these elements, the first of which is child `i`. -/
def itemVisits (i : Nat) : List Value → List Visit
  | [] => []
  | struct fields :: rest => (fieldVisits 0 fields).map (.under i) ++ itemVisits (i + 1) rest
  | _ :: rest => itemVisits (i + 1) rest

end

/-! ## Which fields are visited -/

mutual

/-- Without the addresses, they are the fields below the value. -/
theorem map_field_visits (v : Value) : v.visits.map Visit.field = v.nested := by
  cases v with
  | struct fields => exact map_field_fieldVisits 0 fields
  | list items => exact map_field_itemVisits 0 items
  | _ => rfl

theorem map_field_fieldVisits (i : Nat) (fields : List Field) :
    (fieldVisits i fields).map Visit.field = nestedFields fields := by
  match fields with
  | [] => rfl
  | ⟨info, value, payload⟩ :: rest =>
    have hvalue := map_field_visits value
    have hrest := map_field_fieldVisits (i + 1) rest
    rw [fieldVisits, nestedFields, List.map_cons, List.map_append, List.map_map, hrest, ← hvalue]
    rfl

theorem map_field_itemVisits (i : Nat) (items : List Value) :
    (itemVisits i items).map Visit.field = nestedItems items := by
  match items with
  | [] => rfl
  | item :: rest =>
    have hrest := map_field_itemVisits (i + 1) rest
    cases item with
    | struct fields =>
      have hfields := map_field_fieldVisits 0 fields
      rw [itemVisits, nestedItems, List.map_append, List.map_map, hrest, ← hfields]
      rfl
    | _ => exact hrest

end

/-- A node is visited where it stands, and what it contains under its index. -/
theorem mem_fieldVisits {i : Nat} {fields : List Field} {x : Visit} :
    x ∈ fieldVisits i fields ↔ ∃ (k : Nat) (f : Field), fields[k]? = some f ∧
      (x = ⟨[i + k], f⟩ ∨ ∃ y ∈ f.value.visits, x = y.under (i + k)) := by
  induction fields generalizing i with
  | nil => simp [fieldVisits]
  | cons f rest ih =>
    rcases f with ⟨info, value, payload⟩
    rw [fieldVisits, List.mem_cons, List.mem_append, List.mem_map, ih]
    constructor
    · rintro (rfl | ⟨y, hy, rfl⟩ | ⟨k, f, hf, hx⟩)
      · exact ⟨0, _, rfl, .inl rfl⟩
      · exact ⟨0, _, rfl, .inr ⟨y, hy, rfl⟩⟩
      · rw [Nat.add_assoc, Nat.add_comm 1] at hx
        exact ⟨k + 1, f, hf, hx⟩
    · rintro ⟨k, f, hf, hx⟩
      cases k with
      | zero =>
        cases hf
        rcases hx with rfl | ⟨y, hy, rfl⟩
        · exact .inl rfl
        · exact .inr (.inl ⟨y, hy, rfl⟩)
      | succ k =>
        rw [← Nat.add_assoc, Nat.add_right_comm] at hx
        exact .inr (.inr ⟨k, f, hf, hx⟩)

/-- What an element contains is visited under the number of the element. -/
theorem mem_itemVisits {i : Nat} {items : List Value} {x : Visit} :
    x ∈ itemVisits i items ↔ ∃ (k : Nat) (fields : List Field), items[k]? = some (.struct fields) ∧
      ∃ y ∈ (struct fields).visits, x = y.under (i + k) := by
  induction items generalizing i with
  | nil => simp [itemVisits]
  | cons item rest ih =>
    have hlater : x ∈ itemVisits (i + 1) rest ↔ ∃ (k : Nat) (fields : List Field),
        (item :: rest)[k + 1]? = some (.struct fields) ∧
          ∃ y ∈ (struct fields).visits, x = y.under (i + (k + 1)) := by
      simp only [ih, List.getElem?_cons_succ, Nat.add_assoc, Nat.add_comm 1]
    have hfirst : x ∈ itemVisits i (item :: rest) ↔
        (∃ fields, item = .struct fields ∧ ∃ y ∈ (struct fields).visits, x = y.under i) ∨
          x ∈ itemVisits (i + 1) rest := by
      cases item with
      | struct fields =>
        rw [itemVisits, List.mem_append, List.mem_map]
        apply or_congr_left
        constructor
        · rintro ⟨y, hy, rfl⟩
          exact ⟨fields, rfl, y, hy, rfl⟩
        · rintro ⟨_, ⟨⟩, y, hy, rfl⟩
          exact ⟨y, hy, rfl⟩
      | _ => simp [itemVisits]
    rw [hfirst, hlater]
    constructor
    · rintro (⟨fields, rfl, hx⟩ | ⟨k, hx⟩)
      · exact ⟨0, fields, rfl, hx⟩
      · exact ⟨k + 1, hx⟩
    · rintro ⟨k, fields, hitem, hx⟩
      cases k with
      | zero => exact .inl ⟨fields, Option.some.inj hitem, hx⟩
      | succ k => exact .inr ⟨k, fields, hitem, hx⟩

/-- A visit holds a node that is there. -/
theorem holds_of_mem_visits {v : Value} {x : Visit} (h : x ∈ v.visits) :
    v.Holds x.address x.field := by
  rcases x with ⟨address, g⟩
  induction address generalizing v with
  | nil =>
    cases v with
    | struct fields =>
      obtain ⟨k, f, -, heq | ⟨y, -, heq⟩⟩ := mem_fieldVisits.mp h
      · cases heq
      · cases heq
    | list items =>
      obtain ⟨k, fields, -, y, -, heq⟩ := mem_itemVisits.mp h
      cases heq
    | _ => cases h
  | cons i address ih =>
    cases v with
    | struct fields =>
      obtain ⟨k, f, hf, heq | ⟨y, hy, heq⟩⟩ := mem_fieldVisits.mp h
      · rw [Nat.zero_add] at heq
        cases heq
        exact .child hf
      · rw [Nat.zero_add] at heq
        cases heq
        exact .inside hf (ih hy)
    | list items =>
      obtain ⟨k, fields, hfields, y, hy, heq⟩ := mem_itemVisits.mp h
      rw [Nat.zero_add] at heq
      cases heq
      exact .element hfields (ih hy)
    | _ => cases h

/-- Every node is visited at its address, by induction over the address. -/
theorem Holds.mem_visits {v : Value} {address : List Nat} {f : Field} (h : v.Holds address f) :
    ⟨address, f⟩ ∈ v.visits := by
  induction h with
  | @child fields i f hf =>
    refine mem_fieldVisits.mpr ⟨i, f, hf, .inl ?_⟩
    rw [Nat.zero_add]
  | @inside fields i f address g hf _ ih =>
    refine mem_fieldVisits.mpr ⟨i, f, hf, .inr ⟨_, ih, ?_⟩⟩
    rw [Nat.zero_add]
    rfl
  | @element items i fields address g hfields _ ih =>
    refine mem_itemVisits.mpr ⟨i, fields, hfields, _, ih, ?_⟩
    rw [Nat.zero_add]
    rfl

/-- The visits are the fields that stand below the value, at their addresses. -/
theorem mem_visits_iff {v : Value} {x : Visit} : x ∈ v.visits ↔ v.Holds x.address x.field :=
  ⟨holds_of_mem_visits, fun h => h.mem_visits⟩

/-! ## In which order they are visited -/

theorem Holds.address_ne_nil {v : Value} {address : List Nat} {f : Field} (h : v.Holds address f) :
    address ≠ [] := by
  cases h <;> exact List.cons_ne_nil _ _

/-- What is visited below child `i` is in order with what is visited below later children. -/
theorem pairwise_under {i : Nat} {below later : List Visit} (hbelow : below.Pairwise Visit.Before)
    (hlater : later.Pairwise Visit.Before)
    (hbehind : ∀ x ∈ later, ∃ k address, i < k ∧ x.address = k :: address) :
    (below.map (Visit.under i) ++ later).Pairwise Visit.Before := by
  refine List.pairwise_append.mpr ⟨hbelow.map _ fun _ _ h => h.cons i, hlater, ?_⟩
  intro x hx y hy
  obtain ⟨x, -, rfl⟩ := List.mem_map.mp hx
  obtain ⟨k, address, hlt, haddress⟩ := hbehind y hy
  unfold Visit.Before
  rw [haddress]
  exact .apart [] hlt x.address address

/-- Nodes from an index on have addresses that begin with it or a later one. -/
theorem address_of_mem_fieldVisits {i : Nat} {fields : List Field} {x : Visit}
    (h : x ∈ fieldVisits i fields) : ∃ k address, i ≤ k ∧ x.address = k :: address := by
  obtain ⟨k, f, -, rfl | ⟨y, -, rfl⟩⟩ := mem_fieldVisits.mp h
  · exact ⟨_, _, Nat.le_add_right i k, rfl⟩
  · exact ⟨_, _, Nat.le_add_right i k, rfl⟩

theorem address_of_mem_itemVisits {i : Nat} {items : List Value} {x : Visit}
    (h : x ∈ itemVisits i items) : ∃ k address, i ≤ k ∧ x.address = k :: address := by
  obtain ⟨k, fields, -, y, -, rfl⟩ := mem_itemVisits.mp h
  exact ⟨_, _, Nat.le_add_right i k, rfl⟩

mutual

/-- The visits are in document order. -/
theorem pairwise_visits (v : Value) : v.visits.Pairwise Visit.Before := by
  cases v with
  | struct fields => exact pairwise_fieldVisits 0 fields
  | list items => exact pairwise_itemVisits 0 items
  | _ => exact .nil

/-- The visits of nodes come in the order of their addresses. -/
theorem pairwise_fieldVisits (i : Nat) (fields : List Field) :
    (fieldVisits i fields).Pairwise Visit.Before := by
  match fields with
  | [] => exact .nil
  | ⟨info, value, payload⟩ :: rest =>
    -- the child itself and what is below it, seen from the child
    have hbelow : (⟨[], ⟨info, value, payload⟩⟩ :: value.visits).Pairwise Visit.Before := by
      refine List.pairwise_cons.mpr ⟨fun x hx => ?_, pairwise_visits value⟩
      obtain ⟨k, address, haddress⟩ :=
        List.exists_cons_of_ne_nil (holds_of_mem_visits hx).address_ne_nil
      unfold Visit.Before
      rw [haddress]
      exact .below [] k address
    exact pairwise_under hbelow (pairwise_fieldVisits (i + 1) rest) fun _ =>
      address_of_mem_fieldVisits

theorem pairwise_itemVisits (i : Nat) (items : List Value) :
    (itemVisits i items).Pairwise Visit.Before := by
  match items with
  | [] => exact .nil
  | item :: rest =>
    have hrest := pairwise_itemVisits (i + 1) rest
    cases item with
    | struct fields =>
      exact pairwise_under (pairwise_fieldVisits 0 fields) hrest fun _ => address_of_mem_itemVisits
    | _ => exact hrest

end

end Value

namespace Field

/-- The named fields below the root with their addresses. -/
def visits (tree : Field) : List Visit := tree.value.visits.filter (·.field.info.isSome)

theorem mem_visits_iff {tree : Field} {x : Visit} :
    x ∈ tree.visits ↔ tree.value.Holds x.address x.field ∧ x.field.info.isSome := by
  rw [visits, List.mem_filter, Value.mem_visits_iff]

theorem pairwise_visits (tree : Field) : tree.visits.Pairwise Visit.Before :=
  (Value.pairwise_visits tree.value).filter _

/-- A walk reports what each of the visits says. -/
theorem map_some_walk (tree : Field) : tree.walk.map some = tree.visits.map (·.field.entry) := by
  have hnamed : (fun x : Visit => x.field.entry.isSome) = fun x => x.field.info.isSome := by
    funext x
    rw [entry, Option.isSome_map]
  rw [walk, Value.walk_eq, ← Value.map_field_visits, List.filterMap_map,
    List.map_filterMap_some_eq_filter_map_isSome, List.filter_map, visits, ← hnamed]
  rfl

/-- The paths that a walk reports are those of the fields it visits. -/
theorem map_path_visits (tree : Field) :
    tree.visits.map (·.field.path) = tree.walk.map fun report => some report.1 := by
  have hpath : ∀ f : Field, f.path = f.entry.map Prod.fst := by
    intro f
    rw [path, entry, Option.map_map]
    rfl
  have hreports := congrArg (List.map (Option.map Prod.fst)) (map_some_walk tree)
  rw [List.map_map, List.map_map] at hreports
  simp only [hpath]
  exact hreports.symm

/-- A search gives the field of the first visit of a field with the path. -/
theorem find?_eq_find?_visits (tree : Field) (path : String) :
    tree.find? path = (tree.visits.find? (·.field.path == some path)).map Visit.field := by
  have hnamed : ∀ x : Visit, (x.field.path == some path) =
      decide (x.field.info.isSome = true ∧ (x.field.path == some path) = true) := by
    intro x
    cases hinfo : x.field.info with
    | none => simp [Field.path, hinfo]
    | some info => by_cases hpath : x.field.path = some path <;> simp [hpath]
  rw [find?, Value.find?_eq, ← Value.map_field_visits, List.find?_map, visits, List.find?_filter]
  simp only [← hnamed]
  rfl

/-- A search finds nothing exactly if a walk does not report the path. -/
theorem find?_eq_none_iff (tree : Field) (path : String) :
    tree.find? path = none ↔ path ∉ tree.walk.map Prod.fst := by
  have hvisited : some path ∈ tree.visits.map (·.field.path) ↔ path ∈ tree.walk.map Prod.fst := by
    rw [map_path_visits]
    simp only [List.mem_map, Option.some.injEq]
  rw [find?_eq_find?_visits, Option.map_eq_none_iff, List.find?_eq_none, ← hvisited, List.mem_map]
  simp only [beq_iff_eq, not_exists, not_and]

/-- A search gives the field of the visit with the number of the first report of the path. -/
theorem find?_eq_bind_findIdx? (tree : Field) (path : String) :
    tree.find? path =
      (tree.walk.findIdx? (·.1 == path)).bind fun n => tree.visits[n]?.map Visit.field := by
  have hnumber := congrArg (List.findIdx? (· == some path)) (map_path_visits tree)
  rw [List.findIdx?_map, List.findIdx?_map] at hnumber
  rw [find?_eq_find?_visits, List.find?_eq_bind_findIdx?_getElem?, Option.map_bind]
  exact congrArg (Option.bind · fun n => tree.visits[n]?.map Visit.field) hnumber

/-- A walk reports the path and the value of each named field below the root, in document order and
once, and a search for a path gives the field that the first report of the path is of. It gives none
only where the walk reports no such path. -/
theorem search_agrees_with_walk (tree : Field) :
    ∃ visits : List Visit,
      (∀ x, x ∈ visits ↔ tree.value.Holds x.address x.field ∧ x.field.info.isSome) ∧
      visits.Pairwise Visit.Before ∧ (visits.map Visit.address).Nodup ∧
      tree.walk.map some = visits.map (·.field.entry) ∧
      ∀ path, (tree.find? path = none ↔ path ∉ tree.walk.map Prod.fst) ∧
        tree.find? path =
          (tree.walk.findIdx? (·.1 == path)).bind fun n => visits[n]?.map Visit.field := by
  have horder := pairwise_visits tree
  exact ⟨tree.visits, fun x => mem_visits_iff, horder,
    List.pairwise_map.mpr (horder.imp Precedes.ne), map_some_walk tree,
    fun path => ⟨find?_eq_none_iff tree path, find?_eq_bind_findIdx? tree path⟩⟩

example (n xs x : FieldInfo) :
    (Field.mk none (.struct [⟨none, .struct [⟨some n, .bool true, none⟩], none⟩,
      ⟨some xs, .list [.struct [⟨some x, .bool false, none⟩], .struct []], none⟩]) none).visits.map
        Visit.address = [[0, 0], [1], [1, 0, 0]] := rfl

end Field

end RecordLayout
