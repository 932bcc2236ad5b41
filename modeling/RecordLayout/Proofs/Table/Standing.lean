import RecordLayout.Proofs.Table.Block

/-!
# Layouts in blocks

A part of a layout stands in the block of the whole from some index and some numbers on: its entries,
its names, its expressions and its uses of custom types are those of the tables from there on. What
stands behind a declaration, or inside a structure, stands further on in the same way; so everything
that an entry of the block refers to is found where its numbers say.
-/

namespace RecordLayout

/-- The table has these entries from the index on. -/
def HoldsAt {α : Type} (table : List α) (i : Nat) (xs : List α) : Prop := xs <+: table.drop i

namespace HoldsAt

variable {α : Type} {table xs ys : List α} {x : α} {i : Nat}

theorem self (table : List α) : HoldsAt table 0 table := List.prefix_refl table

theorem left (h : HoldsAt table i (xs ++ ys)) : HoldsAt table i xs :=
  (List.prefix_append xs ys).trans h

theorem right (h : HoldsAt table i (xs ++ ys)) : HoldsAt table (i + xs.length) ys := by
  obtain ⟨rest, hrest⟩ := h
  refine ⟨rest, ?_⟩
  rw [← List.drop_drop, ← hrest, List.append_assoc, List.drop_left]

theorem head (h : HoldsAt table i (x :: xs)) : table[i]? = some x := by
  obtain ⟨rest, hrest⟩ := h
  have hhead := congrArg List.head? hrest
  rw [List.head?_drop] at hhead
  exact hhead.symm

theorem tail (h : HoldsAt table i (x :: xs)) : HoldsAt table (i + 1) xs :=
  (show HoldsAt table i ([x] ++ xs) from h).right

theorem getElem? (h : HoldsAt table i xs) {k : Nat} (hk : xs[k]? = some x) :
    table[i + k]? = some x := by
  obtain ⟨rest, hrest⟩ := h
  have hlt := (List.getElem?_eq_some_iff.mp hk).1
  rw [← List.getElem?_drop, ← hrest, List.getElem?_append_left hlt, hk]

theorem mem (h : HoldsAt table i xs) (hx : x ∈ xs) : x ∈ table :=
  List.mem_of_mem_drop (h.subset hx)

end HoldsAt

/-! ## Entries -/

/-- How a listing shows a parameter whose expression has this number. -/
def Amount.listed (number : Nat) : Amount → ListedAmount
  | const n => .const n
  | computed _ => .expr number

/-- How a listing shows a length whose expression has this number. -/
def Length.listed (number : Nat) : Length → ListedLength
  | const n => .const n
  | computed _ => .expr number
  | unbounded => .unbounded

/-- The expression of a parameter that need not be there. -/
def Amount.exprs (a : Option Amount) : List Expr := (a.bind expr?).toList

/-- The expression of a length that need not be there. -/
def Length.exprs (l : Option Length) : List Expr := (l.bind expr?).toList

namespace ListingNumbers

/-- The numbers behind so many expressions, names and uses. -/
def plus (n : ListingNumbers) (exprs names customs : Nat) : ListingNumbers :=
  ⟨n.exprs + exprs, n.names + names, n.customs + customs⟩

theorem plus_plus (n : ListingNumbers) (a b c d e f : Nat) :
    (n.plus a b c).plus d e f = n.plus (a + d) (b + e) (c + f) := by
  simp only [plus, Nat.add_assoc]

theorem amount_eq (n : ListingNumbers) (a : Option Amount) :
    n.amount a = (a.map (Amount.listed n.exprs), n.plus (Amount.exprs a).length 0 0) := by
  rcases a with _ | _ | _ <;> rfl

theorem length_eq (n : ListingNumbers) (l : Option Length) :
    n.length l = (l.map (Length.listed n.exprs), n.plus (Length.exprs l).length 0 0) := by
  rcases l with _ | _ | _ | _ <;> rfl

theorem name_eq (n : ListingNumbers) (info : Option FieldInfo) :
    n.name info = (info.map fun _ => n.names, n.plus 0 info.toList.length 0) := by
  cases info <;> rfl

theorem custom_eq (n : ListingNumbers) (use : Option CustomUse) :
    n.custom use = (use.map fun _ => n.customs, n.plus 0 0 use.toList.length) := by
  cases use <;> rfl

end ListingNumbers

namespace Layout

/-- The entry of a declaration that is no structure. -/
def itemEntry (num : ListingNumbers) (head : Header) (decl : Decl) : Descriptor where
  kind := decl.kind
  typeName := decl.typeName
  order := head.order
  amount := decl.amount.map (Amount.listed num.exprs)
  length := decl.length.map (Length.listed (num.exprs + (Amount.exprs decl.amount).length))
  info := head.info
  named := head.info.map fun _ => num.names
  custom := decl.customUse.map fun _ => num.customs
  pair := none
  position := head.position

/-- The entry of an opening brace whose closing brace has this index. -/
def openingEntry (num : ListingNumbers) (head : Header) (length : Option Length) (close : Nat) :
    Descriptor where
  kind := .opening
  typeName := Kind.opening.name
  order := head.order
  amount := none
  length := length.map (Length.listed num.exprs)
  info := head.info
  named := head.info.map fun _ => num.names
  custom := none
  pair := some close
  position := head.position

/-- The entry of the closing brace of a structure. -/
def closingEntry (num : ListingNumbers) (head : Header) (closing : Position) : Descriptor where
  kind := .closing
  typeName := Kind.closing.name
  order := head.order
  amount := none
  length := none
  info := head.info
  named := head.info.map fun _ => num.names
  custom := none
  pair := some head.index
  position := closing

/-- The numbers behind a declaration that is no structure. -/
def behindItem (num : ListingNumbers) (head : Header) (decl : Decl) : ListingNumbers :=
  num.plus decl.exprs.length head.info.toList.length decl.customUse.toList.length

/-- The numbers behind an opening brace. -/
def behindOpening (num : ListingNumbers) (head : Header) (length : Option Length) : ListingNumbers :=
  num.plus (Length.exprs length).length head.info.toList.length 0

/-- The numbers behind a layout. -/
def behind (num : ListingNumbers) (l : Layout) : ListingNumbers :=
  num.plus l.exprs.length l.infos.length l.customUses.length

/-- The listing of a declaration is its entry in front of what is listed with the numbers behind it.
-/
theorem listFrom_item (num : ListingNumbers) (head : Header) (decl : Decl) (rest : Layout) :
    listFrom num (item head decl rest) =
      (itemEntry num head decl :: (listFrom (behindItem num head decl) rest).1,
        (listFrom (behindItem num head decl) rest).2) := by
  have hbehind : num.plus ((Amount.exprs decl.amount).length + (Length.exprs decl.length).length)
      head.info.toList.length decl.customUse.toList.length = behindItem num head decl := by
    rw [← List.length_append]
    rfl
  simp only [listFrom, ListingNumbers.custom_eq, ListingNumbers.amount_eq,
    ListingNumbers.length_eq, ListingNumbers.name_eq, ListingNumbers.plus_plus, Nat.zero_add,
    Nat.add_zero, hbehind]
  rfl

/-- That of a structure has its body between the entries of its braces. -/
theorem listFrom_group (num : ListingNumbers) (head : Header) (length : Option Length)
    (body : Layout) (closing : Position) (rest : Layout) :
    listFrom num (group head length body closing rest) =
      (openingEntry num head length (head.index + body.size + 1) ::
        ((listFrom (behindOpening num head length) body).1 ++
          closingEntry num head closing ::
            (listFrom (listFrom (behindOpening num head length) body).2 rest).1),
        (listFrom (listFrom (behindOpening num head length) body).2 rest).2) := by
  simp only [listFrom, ListingNumbers.length_eq, ListingNumbers.name_eq, ListingNumbers.plus_plus,
    Nat.zero_add, Nat.add_zero, length_listFrom]
  rfl

/-- The numbers behind a layout are those in front and what the layout takes. -/
theorem listFrom_numbers (num : ListingNumbers) (l : Layout) :
    (listFrom num l).2 = behind num l := by
  induction l generalizing num with
  | done => rfl
  | item head decl rest ih =>
    rw [listFrom_item, ih, behind, behindItem, ListingNumbers.plus_plus, behind]
    simp only [exprs, infos, customUses, List.length_append, List.length_map]
  | group head length body closing rest ihbody ihrest =>
    rw [listFrom_group, ihrest, ihbody, behind, behind, behindOpening, ListingNumbers.plus_plus,
      ListingNumbers.plus_plus, behind]
    simp only [exprs, infos, customUses, List.length_append, List.length_map, Nat.zero_add,
      Nat.add_assoc]
    rfl

/-- The names of a layout are those that it declares. -/
theorem infos_eq_declared (l : Layout) : l.infos = l.declared.map Declared.info := by
  have hdeclares (head : Header) (numeric : Bool) :
      (head.declares numeric).map Declared.info = head.info.toList := by
    rw [Header.declares, List.map_map]
    exact List.map_id _
  induction l with
  | done => rfl
  | item head decl rest ih => rw [infos, declared, List.map_append, hdeclares, ih]
  | group head length body closing rest ihbody ihrest =>
    rw [infos, declared, List.map_append, List.map_append, hdeclares, ihbody, ihrest]

end Layout

/-! ## Standing -/

/-- The layout stands in the block from the index and the numbers on, behind these names. -/
structure Block.Stands (b : Block) (n : Nat) (num : ListingNumbers) (seen : List Declared)
    (l : Layout) : Prop where
  entries : HoldsAt b.descriptors n (l.listFrom num).1
  names : HoldsAt b.names num.names l.infos
  exprs : HoldsAt b.evaluators num.exprs (l.exprs.map (·.numbered b.names))
  customs : HoldsAt b.customs num.customs (l.customUses.map CustomUse.declared)
  inScope : l.Scoped b.handlers n seen
  seen : ∀ d ∈ seen, d.info ∈ b.names

/-- The whole layout stands in its block from the front of every table on. -/
theorem Layout.stands_block {l : Layout} {handlers : List CustomType} (h : l.Scoped handlers 0 []) :
    (l.block handlers).Stands 0 ⟨0, 0, 0⟩ [] l where
  entries := .self _
  names := .self _
  exprs := .self _
  customs := .self _
  inScope := h
  seen := fun _ h => absurd h List.not_mem_nil

namespace Block.Stands

variable {b : Block} {n : Nat} {num : ListingNumbers} {seen : List Declared} {head : Header}
  {decl : Decl} {length : Option Length} {body rest : Layout} {closing : Position}

/-! A declaration that is no structure. -/

section

variable (h : b.Stands n num seen (.item head decl rest))
include h

theorem item_index : head.index = n := h.inScope.1.index

theorem item_entry : b.descriptors[n]? = some (Layout.itemEntry num head decl) := by
  have hentries := h.entries
  rw [Layout.listFrom_item] at hentries
  exact hentries.head

/-- What is behind it stands one index further on, with its name among those declared. -/
theorem item_rest : b.Stands (n + 1) (Layout.behindItem num head decl)
    (seen ++ head.declares decl.isNumeric) rest where
  entries := by
    have hentries := h.entries
    rw [Layout.listFrom_item] at hentries
    exact hentries.tail
  names := h.names.right
  exprs := by
    have hexprs := h.exprs
    rw [Layout.exprs, List.map_append] at hexprs
    have hrest := hexprs.right
    rwa [List.length_map, List.length_map] at hrest
  customs := by
    have hcustoms := h.customs
    rw [Layout.customUses, List.map_append] at hcustoms
    have hrest := hcustoms.right
    rwa [List.length_map] at hrest
  inScope := h.inScope.2.2.2
  seen := by
    intro d hd
    rcases List.mem_append.mp hd with hd | hd
    · exact h.seen d hd
    · obtain ⟨info, hinfo, rfl⟩ := List.mem_map.mp hd
      exact h.names.mem (List.mem_append_left _ hinfo)

end

/-! A structure. -/

section

variable (h : b.Stands n num seen (.group head length body closing rest))
include h

theorem group_index : head.index = n := h.inScope.1.index

/-- A structure has its opening brace at the index, which tells where it is closed. -/
theorem group_entry :
    b.descriptors[n]? = some (Layout.openingEntry num head length (n + body.size + 1)) := by
  have hentries := h.entries
  rw [Layout.listFrom_group, h.group_index] at hentries
  exact hentries.head

/-- The body of a structure stands behind its opening brace. -/
theorem group_body : b.Stands (n + 1) (Layout.behindOpening num head length)
    (seen ++ head.declares false) body where
  entries := by
    have hentries := h.entries
    rw [Layout.listFrom_group] at hentries
    exact hentries.tail.left
  names := by
    have hnames := h.names
    rw [Layout.infos] at hnames
    exact hnames.left.right
  exprs := by
    have hexprs := h.exprs
    rw [Layout.exprs, List.map_append, List.map_append] at hexprs
    have hbody := hexprs.left.right
    rwa [List.length_map, List.length_map] at hbody
  customs := by
    have hcustoms := h.customs
    rw [Layout.customUses, List.map_append] at hcustoms
    exact hcustoms.left
  inScope := h.inScope.2.2.1
  seen := by
    intro d hd
    rcases List.mem_append.mp hd with hd | hd
    · exact h.seen d hd
    · obtain ⟨info, hinfo, rfl⟩ := List.mem_map.mp hd
      exact h.names.left.mem (List.mem_append_left _ hinfo)

theorem group_close :
    b.descriptors[n + body.size + 1]? = some (Layout.closingEntry num head closing) := by
  have hentries := h.entries
  rw [Layout.listFrom_group] at hentries
  have hclose := hentries.tail.right.head
  rwa [Layout.length_listFrom, Nat.add_right_comm] at hclose

/-- What is behind the structure stands behind the closing brace. -/
theorem group_rest : b.Stands (n + 2 + body.size)
    (Layout.behind (Layout.behindOpening num head length) body)
    (seen ++ head.declares false ++ body.declared) rest where
  entries := by
    have hentries := h.entries
    rw [Layout.listFrom_group, Layout.listFrom_numbers] at hentries
    have hrest := hentries.tail.right.tail
    rwa [Layout.length_listFrom, show n + 1 + body.size + 1 = n + 2 + body.size by omega] at hrest
  names := by
    have hnames := h.names.right
    rw [List.length_append, ← Nat.add_assoc] at hnames
    exact hnames
  exprs := by
    have hexprs := h.exprs
    rw [Layout.exprs, List.map_append, List.map_append] at hexprs
    have hrest := hexprs.right
    rw [List.length_append, List.length_map, List.length_map, List.length_map, ← Nat.add_assoc]
      at hrest
    exact hrest
  customs := by
    have hcustoms := h.customs
    rw [Layout.customUses, List.map_append] at hcustoms
    have hrest := hcustoms.right
    rwa [List.length_map] at hrest
  inScope := h.inScope.2.2.2
  seen := by
    intro d hd
    rcases List.mem_append.mp hd with hd | hd
    · exact h.group_body.seen d hd
    · have hinfo : d.info ∈ body.infos := by
        rw [Layout.infos_eq_declared]
        exact List.mem_map_of_mem hd
      exact h.names.left.mem (List.mem_append_right _ hinfo)

end

end Block.Stands

end RecordLayout
