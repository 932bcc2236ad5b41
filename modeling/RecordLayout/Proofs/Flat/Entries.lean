import RecordLayout.Proofs.Flat.Fields

/-!
# Entries of what is built

While structures are open, what is built is not a layout yet, but it can be listed like one: what
stands before each open structure, the entry of its opening brace, which has no pair, and what stands
inside. More declarations inside the innermost structure add their entries behind, with the next
numbers; closing a structure gives the entry of its opening brace a pair.
-/

namespace RecordLayout

namespace Layout

theorem exprs_append (k l : Layout) : (k ++ l).exprs = k.exprs ++ l.exprs := by
  induction k with
  | done => rfl
  | item head decl rest ih => simp only [item_append, exprs, ih, List.append_assoc]
  | group head length body closing rest _ ih =>
    simp only [group_append, exprs, ih, List.append_assoc]

theorem customUses_append (k l : Layout) :
    (k ++ l).customUses = k.customUses ++ l.customUses := by
  induction k with
  | done => rfl
  | item head decl rest ih => simp only [item_append, customUses, ih, List.append_assoc]
  | group head length body closing rest _ ih =>
    simp only [group_append, customUses, ih, List.append_assoc]

theorem infos_append (k l : Layout) : (k ++ l).infos = k.infos ++ l.infos := by
  rw [infos_eq_declared, declared_append, List.map_append, ← infos_eq_declared,
    ← infos_eq_declared]

/-- The listing goes on behind the first layout with the numbers that this leaves. -/
theorem listFrom_append (num : ListingNumbers) (k l : Layout) :
    (listFrom num (k ++ l)).1 = (listFrom num k).1 ++ (listFrom (behind num k) l).1 := by
  induction k generalizing num with
  | done => rfl
  | item head decl rest ih =>
    have hbehind : behind num (item head decl rest) = behind (behindItem num head decl) rest := by
      rw [← listFrom_numbers, listFrom_item, listFrom_numbers]
    rw [item_append, listFrom_item, ih, listFrom_item, hbehind, List.cons_append]
  | group head length body closing rest _ ih =>
    have hbehind : behind num (group head length body closing rest) =
        behind (listFrom (behindOpening num head length) body).2 rest := by
      rw [← listFrom_numbers, listFrom_group, listFrom_numbers]
    rw [group_append, listFrom_group, ih, listFrom_group, hbehind]
    simp only [List.cons_append, List.append_assoc]

end Layout

namespace LayoutBuilder

/-- What open structures and the declarations inside the innermost come to, in document order. -/
def overOpen {α : Type} (layout : Layout → List α) (head : OpenStruct → List α) :
    List OpenStruct → Layout → List α
  | [], body => layout body
  | s :: opened, body => overOpen layout head opened s.before ++ head s ++ layout body

/-- What open structures hold can be added to at the end. -/
theorem overOpen_append {α : Type} {layout : Layout → List α} {head : OpenStruct → List α}
    (hlayout : ∀ k l, layout (k ++ l) = layout k ++ layout l) (opened : List OpenStruct)
    (body l : Layout) :
    overOpen layout head opened (body ++ l) = overOpen layout head opened body ++ layout l := by
  cases opened with
  | nil => exact hlayout body l
  | cons s opened => rw [overOpen, overOpen, hlayout, ← List.append_assoc]

/-- The expressions of what is built. -/
def exprs : List OpenStruct → Layout → List AttachedExpr :=
  overOpen Layout.exprs fun s => (Length.exprs s.length).map (⟨s.head.index, ·⟩)

/-- The uses of custom types of what is built. -/
def customUses : List OpenStruct → Layout → List CustomUse :=
  overOpen Layout.customUses fun _ => []

/-- The names declared in what is built. -/
def infos : List OpenStruct → Layout → List FieldInfo :=
  overOpen Layout.infos fun s => s.head.info.toList

/-- The names of the entries are those that are declared so far. -/
theorem infos_eq (opened : List OpenStruct) (body : Layout) :
    infos opened body = (startNames opened ++ body.declared).map Declared.info := by
  induction opened generalizing body with
  | nil => exact Layout.infos_eq_declared body
  | cons s opened ih =>
    have hhead : (s.head.declares false).map Declared.info = s.head.info.toList := by
      rw [Header.declares, List.map_map]
      exact List.map_id _
    have hbefore : overOpen Layout.infos (fun s => s.head.info.toList) opened s.before =
        (startNames opened ++ s.before.declared).map Declared.info := ih s.before
    rw [infos, overOpen, hbefore, startNames]
    simp only [List.map_append, hhead, Layout.infos_eq_declared]

/-- The numbers behind what is built. -/
def numbers (opened : List OpenStruct) (body : Layout) : ListingNumbers :=
  ⟨(exprs opened body).length, (infos opened body).length, (customUses opened body).length⟩

theorem numbers_nil (body : Layout) : numbers [] body = Layout.behind ⟨0, 0, 0⟩ body := by
  simp only [numbers, exprs, infos, customUses, overOpen, Layout.behind, ListingNumbers.plus,
    Nat.zero_add]

/-- The numbers inside an open structure are those behind its opening. -/
theorem numbers_cons (s : OpenStruct) (opened : List OpenStruct) (body : Layout) :
    numbers (s :: opened) body =
      Layout.behind (Layout.behindOpening (numbers opened s.before) s.head s.length) body := by
  simp only [numbers, exprs, infos, customUses, overOpen, Layout.behind, Layout.behindOpening,
    ListingNumbers.plus, List.length_append, List.length_map, List.length_nil]

/-- The entry of the opening brace of a structure that is not closed yet. -/
def openEntry (num : ListingNumbers) (s : OpenStruct) : Descriptor :=
  { Layout.openingEntry num s.head s.length 0 with pair := none }

/-- The entries of what is built. -/
def entries : List OpenStruct → Layout → List Descriptor
  | [], body => body.descriptors
  | s :: opened, body =>
    entries opened s.before ++
      openEntry (numbers opened s.before) s ::
        (body.listFrom (Layout.behindOpening (numbers opened s.before) s.head s.length)).1

theorem entries_append (opened : List OpenStruct) (body l : Layout) :
    entries opened (body ++ l) =
      entries opened body ++ (l.listFrom (numbers opened body)).1 := by
  cases opened with
  | nil => rw [entries, Layout.descriptors, Layout.listFrom_append, numbers_nil]; rfl
  | cons s opened =>
    rw [entries, Layout.listFrom_append, numbers_cons, entries, List.append_assoc,
      List.cons_append]

/-- There are as many entries as indexes have been given. -/
theorem length_entries {customs : List CustomType} {opened : List OpenStruct}
    (h : OpenedScoped customs opened) (body : Layout) :
    (entries opened body).length = startIndex opened + body.size := by
  induction opened generalizing body with
  | nil => rw [entries, Layout.length_descriptors, startIndex, Nat.zero_add]
  | cons s opened ih =>
    obtain ⟨-, hplaced, -, hopened⟩ := h
    rw [entries, List.length_append, ih hopened, ← hplaced.index, List.length_cons,
      Layout.length_listFrom, startIndex]
    omega

/-- The entries behind a declaration that is no structure. -/
theorem entries_item (opened : List OpenStruct) (body : Layout) (head : Header) (decl : Decl) :
    entries opened (body ++ .item head decl .done) =
      entries opened body ++ [Layout.itemEntry (numbers opened body) head decl] := by
  rw [entries_append, Layout.listFrom_item]
  rfl

/-- The entries inside a structure that has just been opened. -/
theorem entries_opened (s : OpenStruct) (opened : List OpenStruct) :
    entries (s :: opened) .done =
      entries opened s.before ++ [openEntry (numbers opened s.before) s] := rfl

/-- Closing a structure gives its opening brace a pair. -/
theorem entries_closed {customs : List CustomType} (s : OpenStruct) (opened : List OpenStruct)
    (h : OpenedScoped customs (s :: opened)) (body : Layout) (position : Position) :
    entries opened (s.before ++ .group s.head s.length body position .done) =
      (entries (s :: opened) body).set s.head.index
        { openEntry (numbers opened s.before) s with
          pair := some (entries (s :: opened) body).length } ++
      [Layout.closingEntry (numbers opened s.before) s.head position] := by
  have hindex : s.head.index = (entries opened s.before).length := by
    rw [length_entries h.2.2.2, h.2.1.index]
  have hlength : (entries (s :: opened) body).length = s.head.index + body.size + 1 := by
    rw [length_entries h, startIndex]
    omega
  rw [entries_append, Layout.listFrom_group, hlength, entries, hindex,
    List.set_append_right _ _ (le_refl _), Nat.sub_self, List.set_cons_zero]
  simp only [List.append_assoc, List.cons_append]
  rfl

/-- Closing a structure leaves its expressions and uses what they are. -/
theorem exprs_closed (s : OpenStruct) (opened : List OpenStruct) (body : Layout)
    (position : Position) :
    exprs opened (s.before ++ .group s.head s.length body position .done) =
      exprs (s :: opened) body := by
  rw [exprs, overOpen_append Layout.exprs_append, overOpen, Layout.exprs, Layout.exprs,
    List.append_nil, ← List.append_assoc]
  rfl

/-- Closing a structure changes nothing in the list of custom types. -/
theorem customUses_closed (s : OpenStruct) (opened : List OpenStruct) (body : Layout)
    (position : Position) :
    customUses opened (s.before ++ .group s.head s.length body position .done) =
      customUses (s :: opened) body := by
  rw [customUses, overOpen_append Layout.customUses_append, overOpen, Layout.customUses,
    Layout.customUses, List.append_nil, List.append_nil]

/-- The opening brace of the innermost structure is where its head says. -/
theorem entry_opened {customs : List CustomType} {s : OpenStruct} {opened : List OpenStruct}
    (h : OpenedScoped customs (s :: opened)) (body : Layout) :
    (entries (s :: opened) body)[s.head.index]? = some (openEntry (numbers opened s.before) s) := by
  have hindex : s.head.index = (entries opened s.before).length := by
    rw [length_entries h.2.2.2, h.2.1.index]
  rw [entries, hindex, List.getElem?_append_right (le_refl _), Nat.sub_self,
    List.getElem?_cons_zero]

end LayoutBuilder

end RecordLayout
