import RecordLayout.Proofs.Layout.Format
import RecordLayout.Proofs.Layout.Shape

/-!
# Facts about records

What can be said of the pieces of a record without reading or writing them: which of them a write
sees, where the lost bits stand, and how many bits there are at least.
-/

namespace RecordLayout

variable {ctx : PassContext} {p p' : Place} {fields : List Field} {pieces : List Piece}
  {place : Option Place} {body : Place → List Field → List Piece → Option Place → Prop}

/-! ## Where a record ends -/

/-- A record that ends in an array ends in an element. -/
theorem Elements.Spells.exists_of_none {values : List Value} {begun : Nat}
    (h : Elements.Spells body p values pieces begun none) :
    ∃ p fields pieces, body p fields pieces none := by
  generalize hplace : (none : Option Place) = place at h
  induction h with
  | nil => cases hplace
  | next one rest ih => exact ih hplace
  | cut one any => exact ⟨_, _, _, one⟩
  | dropped one => exact ⟨_, _, _, one⟩

/-- A group that the input cuts off is cut off in one of its elements. -/
theorem Group.Spells.exists_of_none {certain : Nat} {length : Option Length} {v : Value}
    (h : Group.Spells ctx certain body length p v pieces none) :
    ∃ p fields pieces, body p fields pieces none := by
  cases h with
  | cut one => exact ⟨_, _, _, one⟩
  | counted count all => exact all.exists_of_none
  | unbounded count all => exact all.exists_of_none

/-- Only a lenient pass ends early, and only before a value. -/
theorem Layout.Spells.holdsValue_of_none {l : Layout} (h : l.Spells ctx p fields pieces none) :
    ctx.options.lenient = true ∧ l.holdsValue = true := by
  induction l generalizing p fields pieces with
  | done => cases h.2.2
  | item head decl rest ih =>
    rcases h with ⟨⟨hlenient, hholds⟩, -⟩ | ⟨node, first, p₁, more, later, -, hrest, -, -⟩
    · exact ⟨hlenient, by rw [Layout.holdsValue, hholds, Bool.true_or]⟩
    · obtain ⟨hlenient, hholds⟩ := ih hrest
      exact ⟨hlenient, by rw [Layout.holdsValue, hholds, Bool.or_true]⟩
  | group head length body closing rest ihbody ihrest =>
    rcases h with ⟨⟨hlenient, hholds⟩, -⟩ | ⟨v, first, ⟨hgroup, -⟩ | ⟨p₁, more, later, -, hrest, -⟩⟩
    · exact ⟨hlenient, by rw [Layout.holdsValue, hholds, Bool.true_or]⟩
    · obtain ⟨q, fs, ps, hbody⟩ := hgroup.exists_of_none
      obtain ⟨hlenient, hholds⟩ := ihbody hbody
      exact ⟨hlenient, by rw [Layout.holdsValue, hholds, Bool.true_or]⟩
    · obtain ⟨hlenient, hholds⟩ := ihrest hrest
      exact ⟨hlenient, by rw [Layout.holdsValue, hholds, Bool.or_true]⟩

/-! ## Items -/

theorem Decl.holdsValue_value (type : ElementType) (length : Option Length) :
    (Decl.value type length).kind.holdsValue = true := by
  cases type <;> rfl

theorem Decl.isDirective_value (type : ElementType) (length : Option Length) :
    (Decl.value type length).kind.isDirective = false := by
  cases type <;> rfl

theorem Decl.Spells.items_ne_nil {head : Header} {decl : Decl} {node : Option Field}
    (h : decl.Spells ctx head p node pieces p') (hholds : decl.kind.holdsValue = true) :
    pieces.flatMap Piece.items ≠ [] := by
  cases h with
  | single | counted | unbounded => simp [Piece.items]
  | computed | align | skip | reset => cases hholds

/-- The items of an array begin with the number of its elements. -/
theorem Group.Spells.items_ne_nil {certain : Nat} {length : Length} {v : Value}
    (h : Group.Spells ctx certain body (some length) p v pieces place) :
    pieces.flatMap Piece.items ≠ [] := by
  cases h <;> simp [Piece.items]

theorem Group.Spells.items_ne_nil_of_some {certain : Nat} {length : Option Length} {v : Value}
    (hbody : ∀ {p fields pieces p'}, body p fields pieces (some p') →
      pieces.flatMap Piece.items ≠ [])
    (h : Group.Spells ctx certain body length p v pieces (some p')) :
    pieces.flatMap Piece.items ≠ [] := by
  cases length with
  | some l => exact h.items_ne_nil
  | none =>
    cases h with
    | struct one => exact hbody one

/-- A part of a record that holds values and is complete gives a write something to take. -/
theorem Layout.Spells.items_ne_nil {l : Layout} (h : l.Spells ctx p fields pieces (some p'))
    (hholds : l.holdsValue = true) : pieces.flatMap Piece.items ≠ [] := by
  induction l generalizing p p' fields pieces with
  | done => cases hholds
  | item head decl rest ih =>
    rcases h with ⟨-, -, -, ⟨⟩⟩ | ⟨node, first, p₁, more, later, hdecl, hrest, -, rfl⟩
    rw [List.flatMap_append]
    rw [Layout.holdsValue, Bool.or_eq_true] at hholds
    rcases hholds with hholds | hholds
    · exact List.append_ne_nil_of_left_ne_nil (hdecl.items_ne_nil hholds) _
    · exact List.append_ne_nil_of_right_ne_nil _ (ih hrest hholds)
  | group head length body closing rest ihbody ihrest =>
    rcases h with ⟨-, -, -, ⟨⟩⟩ |
      ⟨v, first, ⟨-, -, -, ⟨⟩⟩ | ⟨p₁, more, later, hgroup, hrest, -, rfl⟩⟩
    rw [List.flatMap_append]
    rw [Layout.holdsValue, Bool.or_eq_true] at hholds
    rcases hholds with hholds | hholds
    · refine List.append_ne_nil_of_left_ne_nil ?_ _
      exact hgroup.items_ne_nil_of_some fun one => ihbody one hholds
    · exact List.append_ne_nil_of_right_ne_nil _ (ihrest hrest hholds)

/-- What is lost of a structure is all there is of it in the record. -/
theorem Group.Spells.lost_of_items {certain : Nat} {length : Option Length} {v : Value}
    (h : Group.Spells ctx certain body length p v pieces none)
    (hnone : pieces.flatMap Piece.items = []) : pieces.flatMap Piece.written = [] := by
  cases length with
  | some l => exact absurd hnone h.items_ne_nil
  | none =>
    cases h with
    | @cut _ _ pieces one =>
      unfold Piece.cut at hnone ⊢
      split at hnone
      · rename_i hempty
        rw [if_pos hempty]
        rfl
      · rename_i hany
        exact absurd (List.isEmpty_iff.mpr hnone) hany

/-! ## Lost bits -/

/-- The lost bits stand at the end of the pieces. -/
def LostLast (pieces : List Piece) (place : Option Place) : Prop :=
  pieces.flatMap Piece.bits = pieces.flatMap Piece.keptBits ++ pieces.flatMap Piece.lostBits ∧
    (place.isSome = true → pieces.flatMap Piece.lostBits = [])

/-- Behind pieces that are complete, the lost bits are the last ones of all. -/
theorem LostLast.append {first later : List Piece} (h : LostLast first (some p))
    (h' : LostLast later place) : LostLast (first ++ later) place := by
  have hnone := h.2 rfl
  refine ⟨?_, fun hplace => ?_⟩
  · have hfirst := h.1
    rw [hnone, List.append_nil] at hfirst
    simp only [List.flatMap_append, hnone, List.nil_append, hfirst, h'.1, List.append_assoc]
  · rw [List.flatMap_append, hnone, h'.2 hplace, List.append_nil]

theorem lostLast_lost (bits : List Bool) : LostLast [.lost bits] none := by
  simp [LostLast, Piece.bits, Piece.keptBits, Piece.lostBits]

theorem Decl.Spells.lostLast {head : Header} {decl : Decl} {node : Option Field}
    (h : decl.Spells ctx head p node pieces p') : LostLast pieces (some p') := by
  cases h <;> simp [LostLast, Piece.bits, Piece.keptBits, Piece.lostBits]

theorem Elements.Spells.lostLast {values : List Value} {begun : Nat}
    (hbody : ∀ p fields pieces place, body p fields pieces place → LostLast pieces place)
    (h : Elements.Spells body p values pieces begun place) : LostLast pieces place := by
  induction h with
  | nil => exact ⟨rfl, fun _ => rfl⟩
  | next one rest ih => exact (hbody _ _ _ _ one).append ih
  | cut one any => exact hbody _ _ _ _ one
  | dropped one => exact lostLast_lost _

theorem Group.Spells.lostLast {certain : Nat} {length : Option Length} {v : Value}
    (hbody : ∀ p fields pieces place, body p fields pieces place → LostLast pieces place)
    (h : Group.Spells ctx certain body length p v pieces place) : LostLast pieces place := by
  cases h with
  | struct one => exact hbody _ _ _ _ one
  | cut one =>
    unfold Piece.cut
    split
    · exact lostLast_lost _
    · exact hbody _ _ _ _ one
  | counted count all le eq =>
    have hall := all.lostLast hbody
    simpa [LostLast, Piece.bits, Piece.keptBits, Piece.lostBits] using hall
  | unbounded count all =>
    have hall := all.lostLast hbody
    simpa [LostLast, Piece.bits, Piece.keptBits, Piece.lostBits] using hall

/-- Only the last bits of a tree can be lost, by induction over what was spelled. -/
theorem Layout.Spells.lostLast {l : Layout} (h : l.Spells ctx p fields pieces place) :
    LostLast pieces place := by
  induction l generalizing p fields pieces place with
  | done =>
    obtain ⟨-, rfl, -⟩ := h
    exact ⟨rfl, fun _ => rfl⟩
  | item head decl rest ih =>
    rcases h with ⟨-, -, rfl, -⟩ | ⟨node, first, p₁, more, later, hdecl, hrest, -, rfl⟩
    · exact ⟨rfl, fun _ => rfl⟩
    · exact hdecl.lostLast.append (ih hrest)
  | group head length body closing rest ihbody ihrest =>
    rcases h with ⟨-, -, rfl, -⟩ |
      ⟨v, first, ⟨hgroup, -, rfl, rfl⟩ | ⟨p₁, more, later, hgroup, hrest, -, rfl⟩⟩
    · exact ⟨rfl, fun _ => rfl⟩
    · exact hgroup.lostLast fun _ _ _ _ => ihbody
    · exact (hgroup.lostLast fun _ _ _ _ => ihbody).append (ihrest hrest)

/-! ## The items of the fields -/

theorem checkPlace_of_numbered {head : Header} (h : head.Numbered) (v : Value) :
    Item.checkPlace head (.new head.info v) = .ok () := by
  unfold Item.checkPlace
  split
  · rename_i info hinfo
    rw [if_pos (h info hinfo)]
  · rfl

/-- Without nodes there are no items. -/
theorem ofFields_nil (l : Layout) : ∃ whole, Item.ofFields l [] = .ok ([], whole) := by
  induction l with
  | done => exact ⟨true, rfl⟩
  | item head decl rest ih =>
    rw [Item.ofFields]
    split
    · exact ih
    · exact ⟨false, rfl⟩
  | group head length body closing rest _ _ => exact ⟨false, rfl⟩

/-- The tree of a part of a record gives the items of the pieces. It may end where a complete tree
would go on only if the record ends there. -/
def Laid (laid : Except Error Item.Laid) (pieces : List Piece) (place : Option Place) : Prop :=
  ∃ whole, laid = .ok (pieces.flatMap Piece.items, whole) ∧ (place.isSome = true → whole = true)

/-- The items of elements are those that their pieces take. -/
theorem Elements.Spells.laid (shape : Error) {items : List Field → Except Error Item.Laid}
    {values : List Value} {begun : Nat}
    (h : Elements.Spells body p values pieces begun place)
    (hbody : ∀ p fields pieces place, body p fields pieces place →
      Laid (items fields) pieces place) :
    Laid (Item.ofElements shape items values) pieces place := by
  induction h with
  | nil => exact ⟨true, rfl, fun _ => rfl⟩
  | next one rest ih =>
    obtain ⟨whole, hone, hwhole⟩ := hbody _ _ _ _ one
    obtain ⟨whole', hrest, hwhole'⟩ := ih
    refine ⟨whole', ?_, hwhole'⟩
    rw [Item.ofElements, hone, List.flatMap_append]
    simp only [Item.andThen, hwhole rfl, hrest, bind, Except.bind, pure, Except.pure, if_true]
  | cut one any =>
    obtain ⟨whole, hone, -⟩ := hbody _ _ _ _ one
    refine ⟨whole, ?_, fun h => by cases h⟩
    rw [Item.ofElements, hone]
    cases whole <;> simp [Item.andThen, Item.ofElements, bind, Except.bind, pure, Except.pure]
  | dropped one => exact ⟨true, by simp [Item.ofElements, Piece.items], fun _ => rfl⟩

/-- The items of a group are those that its pieces take. -/
theorem Group.Spells.laid {items : List Field → Except Error Item.Laid}
    {certain : Nat} {length : Option Length} {v : Value}
    (h : Group.Spells ctx certain body length p v pieces place) (head : Header)
    (hbody : ∀ p fields pieces place, body p fields pieces place →
      Laid (items fields) pieces place) :
    Laid (Item.ofGroup head length items v) pieces place := by
  cases h with
  | struct one => exact hbody _ _ _ _ one
  | cut one =>
    obtain ⟨whole, hone, -⟩ := hbody _ _ _ _ one
    refine ⟨whole, hone.trans ?_, fun h => by cases h⟩
    unfold Piece.cut
    split
    · rename_i hnone
      rw [List.isEmpty_iff.mp hnone]
      rfl
    · rfl
  | counted count all le eq =>
    obtain ⟨whole, hall, hwhole⟩ :=
      all.laid (.wrongShape head.index Kind.opening.name) hbody
    refine ⟨whole, ?_, hwhole⟩
    simp only [Item.ofGroup, hall, bind, Except.bind, pure, Except.pure]
    rfl
  | unbounded count all =>
    obtain ⟨whole, hall, hwhole⟩ :=
      all.laid (.wrongShape head.index Kind.opening.name) hbody
    refine ⟨whole, ?_, hwhole⟩
    simp only [Item.ofGroup, hall, bind, Except.bind, pure, Except.pure]
    simp [Piece.items]

/-- A directive takes no item; any other declaration takes the items of its node. -/
theorem Decl.Spells.laid {head : Header} {decl : Decl} {node : Option Field}
    (h : decl.Spells ctx head p node pieces p') :
    (decl.kind.isDirective = true ∧ node = none ∧ pieces.flatMap Piece.items = []) ∨
      ∃ v, decl.kind.isDirective = false ∧ node = some (.new head.info v) ∧
        Item.ofNode decl (.new head.info v) = pieces.flatMap Piece.items := by
  cases h with
  | @single type w v =>
    refine Or.inr ⟨v, Decl.isDirective_value type none, rfl, ?_⟩
    simp [Item.ofNode, Decl.holdsValue_value, Piece.items, Field.new]
  | @counted type length w n v =>
    refine Or.inr ⟨v, Decl.isDirective_value type (some length), rfl, ?_⟩
    simp [Item.ofNode, Decl.holdsValue_value, Piece.items, Field.new]
  | @unbounded type length w v =>
    refine Or.inr ⟨v, Decl.isDirective_value type (some length), rfl, ?_⟩
    simp [Item.ofNode, Decl.holdsValue_value, Piece.items, Field.new]
  | computed => exact Or.inr ⟨_, rfl, rfl, rfl⟩
  | align | skip | reset => exact Or.inl ⟨rfl, rfl, rfl⟩

/-- The items of the fields of a record are those of its pieces. -/
theorem Layout.Spells.laid {l : Layout} (hnumbered : l.Numbered)
    (h : l.Spells ctx p fields pieces place) : Laid (Item.ofFields l fields) pieces place := by
  induction l generalizing p fields pieces place with
  | done =>
    obtain ⟨rfl, rfl, rfl⟩ := h
    exact ⟨true, rfl, fun _ => rfl⟩
  | item head decl rest ih =>
    rcases h with ⟨-, rfl, rfl, rfl⟩ | ⟨node, first, p₁, more, later, hdecl, hrest, rfl, rfl⟩
    · obtain ⟨whole, h⟩ := ofFields_nil (.item head decl rest)
      exact ⟨whole, h, fun h => by cases h⟩
    · obtain ⟨whole, hlaid, hwhole⟩ := ih hnumbered.2 hrest
      refine ⟨whole, ?_, hwhole⟩
      rw [List.flatMap_append]
      rcases hdecl.laid with ⟨hdirective, rfl, hitems⟩ | ⟨v, hdirective, rfl, hitems⟩
      · unfold Item.ofFields
        rw [if_pos hdirective, hitems]
        exact hlaid
      · unfold Item.ofFields
        rw [if_neg (by rw [hdirective]; exact Bool.false_ne_true)]
        simp only [Option.toList_some, List.singleton_append,
          checkPlace_of_numbered hnumbered.1, hitems, Item.andThen, hlaid, if_true]
        rfl
  | group head length body closing rest ihbody ihrest =>
    obtain ⟨hhead, hbody, hrest⟩ := hnumbered
    rcases h with ⟨-, rfl, rfl, rfl⟩ |
      ⟨v, first, ⟨hgroup, rfl, rfl, rfl⟩ | ⟨p₁, more, later, hgroup, hmore, rfl, rfl⟩⟩
    · exact ⟨false, rfl, fun h => by cases h⟩
    -- The record is cut off in this group, so the rest of the layout lays out no items.
    · obtain ⟨whole, hlaid, -⟩ := hgroup.laid head fun _ _ _ _ => ihbody hbody
      obtain ⟨whole', hnil⟩ := ofFields_nil rest
      refine ⟨if whole then whole' else false, ?_, fun h => by cases h⟩
      rw [Item.ofFields]
      have hplace : Item.checkPlace head ⟨head.info, v, none⟩ = .ok () :=
        checkPlace_of_numbered hhead v
      simp only [bind, Except.bind, Field.new, hplace, hlaid]
      cases whole
      · rfl
      · simp [Item.andThen, hnil, bind, Except.bind, pure, Except.pure]
    · obtain ⟨whole, hlaid, hwhole⟩ := hgroup.laid head fun _ _ _ _ => ihbody hbody
      obtain ⟨whole', hlater, hwhole'⟩ := ihrest hrest hmore
      refine ⟨whole', ?_, hwhole'⟩
      rw [Item.ofFields, List.flatMap_append]
      have hplace : Item.checkPlace head ⟨head.info, v, none⟩ = .ok () :=
        checkPlace_of_numbered hhead v
      simp only [bind, Except.bind, Field.new, hplace, hlaid, hwhole rfl, Item.andThen, hlater,
        if_true]
      rfl

/-! ## Floats -/

/-- The 32-bit floats of a piece come back from 64 bits. -/
def Piece.Survives : Piece → Prop
  | value _ v => v.Survives
  | _ => True

/-- The floats of a record are those of its fields. -/
def Survive (floats : List Binary32) (pieces : List Piece) : Prop :=
  (∀ x ∈ floats, x.widen.narrow = x) → ∀ e ∈ pieces, e.Survives

theorem Survive.append {xs ys : List Binary32} {first later : List Piece} (h : Survive xs first)
    (h' : Survive ys later) : Survive (xs ++ ys) (first ++ later) := by
  intro hall e he
  rcases List.mem_append.mp he with he | he
  · exact h (fun x hx => hall x (List.mem_append_left ys hx)) e he
  · exact h' (fun x hx => hall x (List.mem_append_right xs hx)) e he

/-- The numbers of a declaration that survive are those in its pieces. -/
theorem Decl.Spells.survive {head : Header} {decl : Decl} {node : Option Field}
    (h : decl.Spells ctx head p node pieces p') :
    Survive (Value.floatsOfFields node.toList) pieces := by
  intro hall e he
  cases h with
  | single | counted =>
    cases List.mem_singleton.mp he
    simpa [Piece.Survives, Value.Survives, Value.floatsOfFields, Field.new] using hall
  | unbounded =>
    rcases List.mem_cons.mp he with rfl | he
    · simpa [Piece.Survives, Value.Survives, Value.floatsOfFields, Field.new] using hall
    · cases List.mem_singleton.mp he
      trivial
  | computed => cases he
  | align | skip | reset =>
    cases List.mem_singleton.mp he
    trivial

/-- Those of its elements are in the pieces of the elements. -/
theorem Elements.Spells.survive {values : List Value} {begun : Nat}
    (hbody : ∀ p fields pieces place, body p fields pieces place →
      Survive (Value.floatsOfFields fields) pieces)
    (h : Elements.Spells body p values pieces begun place) :
    Survive (Value.floatsOfItems values) pieces := by
  induction h with
  | nil =>
    rintro - e ⟨⟩
  | next one rest ih =>
    rw [Value.floatsOfItems, Value.floats]
    exact (hbody _ _ _ _ one).append ih
  | cut one any =>
    rw [Value.floatsOfItems, Value.floats, Value.floatsOfItems, List.append_nil]
    exact hbody _ _ _ _ one
  | dropped one =>
    rintro - e he
    cases List.mem_singleton.mp he
    trivial

theorem Group.Spells.survive {certain : Nat} {length : Option Length} {v : Value}
    (hbody : ∀ p fields pieces place, body p fields pieces place →
      Survive (Value.floatsOfFields fields) pieces)
    (h : Group.Spells ctx certain body length p v pieces place) : Survive v.floats pieces := by
  cases h with
  | struct one => exact hbody _ _ _ _ one
  | cut one =>
    unfold Piece.cut
    split
    · rintro - e he
      cases List.mem_singleton.mp he
      trivial
    · exact hbody _ _ _ _ one
  | counted count all le eq =>
    intro hall e he
    rcases List.mem_cons.mp he with rfl | he
    · trivial
    · exact all.survive hbody hall e he
  | unbounded count all =>
    intro hall e he
    rcases List.mem_cons.mp he with rfl | he
    · trivial
    rcases List.mem_append.mp he with he | he
    · exact all.survive hbody hall e he
    · cases List.mem_singleton.mp he
      trivial

/-- The numbers of a tree are those in its pieces, by induction over what was spelled. -/
theorem Layout.Spells.survive {l : Layout} (h : l.Spells ctx p fields pieces place) :
    Survive (Value.floatsOfFields fields) pieces := by
  induction l generalizing p fields pieces place with
  | done =>
    obtain ⟨-, rfl, -⟩ := h
    rintro - e ⟨⟩
  | item head decl rest ih =>
    rcases h with ⟨-, -, rfl, -⟩ | ⟨node, first, p₁, more, later, hdecl, hrest, rfl, rfl⟩
    · rintro - e ⟨⟩
    · rw [Value.floatsOfFields_append]
      exact hdecl.survive.append (ih hrest)
  | group head length body closing rest ihbody ihrest =>
    have hbody := fun p fields pieces place => @ihbody p fields pieces place
    rcases h with ⟨-, -, rfl, -⟩ |
      ⟨v, first, ⟨hgroup, rfl, rfl, -⟩ | ⟨p₁, more, later, hgroup, hrest, rfl, rfl⟩⟩
    · rintro - e ⟨⟩
    · rw [Field.new, Value.floatsOfFields, Value.floatsOfFields, List.append_nil]
      exact hgroup.survive hbody
    · rw [Field.new, Value.floatsOfFields]
      exact (hgroup.survive hbody).append (ihrest hrest)

/-! ## How many bits there are -/

theorem Amount.value_const {n : UInt32} {env : Expr.Env} {v : Int64}
    (h : (const n).value env = .ok v) : v.toInt.toNat = n.toNat ∧ 0 ≤ v := by
  cases h
  have hlt := n.toNat_lt
  have hint : (Int64.ofNat n.toNat).toInt = n.toNat := Int64.toInt_ofNat_of_lt (by omega)
  rw [Int64.le_iff_toInt_le, hint]
  simp

theorem PassContext.count_of_const {n : UInt32} {env : Expr.Env} {count : Option Nat}
    (h : ctx.count env (.const n) = .ok count) : count = some n.toNat := by
  cases h
  rfl

/-- What is certain of one element is the least it takes. -/
theorem ElementType.certainBits_le {type : ElementType} {env : Expr.Env} {w : Nat}
    (hwidth : type.width env = .ok w) (length : Option Length) :
    (Decl.value type length).certainBits ≤ type.leastBits w := by
  cases type with
  | bit a =>
    obtain ⟨v, hv, h⟩ := except_bind_eq_ok.mp hwidth
    cases a with
    | const n =>
      split at h
      · cases h
        exact Nat.le_of_eq (Amount.value_const hv).1.symm
      · cases h
    | computed e => exact (width_bit hwidth).1
  | fixed _ | text | custom _ _ => simp [Decl.certainBits, leastBits]

theorem le_length_flatMap {α β : Type} {f : α → List β} {least : Nat} {xs : List α}
    (h : ∀ x ∈ xs, least ≤ (f x).length) : xs.length * least ≤ (xs.flatMap f).length := by
  induction xs with
  | nil => simp
  | cons x xs ih =>
    have hx := h x List.mem_cons_self
    have hxs := ih fun y hy => h y (List.mem_cons_of_mem x hy)
    rw [List.flatMap_cons, List.length_append, List.length_cons, Nat.succ_mul]
    omega

/-- An array that fits its slot takes at least the bits of its elements. -/
theorem Slot.leastBits_le_spell {order : ByteOrder} {type : ElementType} {width n : Nat} {v : Value}
    (hfits : (Slot.mk order type width true).Fits v) (hlong : v.length? = some n) :
    n * type.leastBits width ≤ ((Slot.mk order type width true).spell v).length := by
  cases hbyte : type.isByte with
  | true =>
    simp only [Fits, hbyte] at hfits
    obtain ⟨bs, rfl⟩ := hfits
    have hleast : type.leastBits width = 8 := by
      cases type with
      | fixed type =>
        cases type with
        | byte | ubyte => rfl
        | _ => cases hbyte
      | _ => cases hbyte
    cases hlong
    simp only [hleast, spell, Bits.length_ofBytes, Nat.mul_comm, Nat.le_refl]
  | false =>
    simp only [Fits, hbyte] at hfits
    obtain ⟨items, rfl, hall⟩ := hfits
    cases hlong
    exact le_length_flatMap fun x hx => ElementType.leastBits_le_spell order (hall x hx)

/-- A declaration has no fewer bits than are certain of it. -/
theorem Decl.Spells.certainBits_le {head : Header} {decl : Decl} {node : Option Field}
    (h : decl.Spells ctx head p node pieces p') :
    Layout.certainCount decl.length * decl.certainBits ≤ (pieces.flatMap Piece.bits).length := by
  cases h with
  | @single type w v _ hwidth hfits =>
    have hcertain := ElementType.certainBits_le hwidth none
    have hleast := ElementType.leastBits_le_spell head.order (show type.Fits w v from hfits)
    rw [show Layout.certainCount (Decl.value type none).length = 1 from rfl, Nat.one_mul,
      List.flatMap_singleton]
    exact Nat.le_trans hcertain hleast
  | @counted type length w n v _ hwidth hcount hlong hfits =>
    have hcertain := ElementType.certainBits_le hwidth (some length)
    have hleast := Slot.leastBits_le_spell hfits hlong
    rw [List.flatMap_singleton]
    refine Nat.le_trans (Nat.mul_le_mul ?_ hcertain) hleast
    cases length with
    | const m => exact Nat.le_of_eq (Option.some.inj (PassContext.count_of_const hcount)).symm
    | computed | unbounded => exact Nat.zero_le n
  | unbounded hwidth hcount =>
    rw [PassContext.eq_unbounded_of_count hcount, Decl.length,
      show Layout.certainCount (some .unbounded) = 0 from rfl, Nat.zero_mul]
    exact Nat.zero_le _
  | computed | align | reset => simp [Decl.certainBits]
  | @skip a n bits _ hcount hlong =>
    cases a with
    | computed => simp [Decl.certainBits]
    | const m =>
      obtain ⟨v, hv, hn⟩ := except_bind_eq_ok.mp hcount
      obtain ⟨htoNat, hpos⟩ := Amount.value_const hv
      rw [PassContext.nonNegative, if_pos hpos] at hn
      cases hn
      rw [List.flatMap_singleton, Piece.bits, hlong, htoNat]
      exact Nat.le_of_eq (Nat.one_mul _)

/-- As many values stand there as elements were begun, if the last one has ended. -/
theorem Elements.Spells.length_eq {values : List Value} {begun : Nat}
    (h : Elements.Spells body p values pieces begun (some p')) : values.length = begun := by
  generalize hplace : some p' = place at h
  induction h with
  | nil => rfl
  | next one _ ih => rw [List.length_cons, ih hplace]
  | cut | dropped => cases hplace

/-- Elements have no fewer bits than are certain of each. -/
theorem Elements.Spells.certainBits_le {values : List Value} {begun certain : Nat}
    (hbody : ∀ p fields pieces p', body p fields pieces (some p') →
      certain ≤ (pieces.flatMap Piece.bits).length)
    (h : Elements.Spells body p values pieces begun (some p')) :
    values.length * certain ≤ (pieces.flatMap Piece.bits).length := by
  generalize hplace : some p' = place at h
  induction h with
  | nil => simp
  | next one _ ih =>
    have hone := hbody _ _ _ _ one
    have hrest := ih hplace
    rw [List.flatMap_append, List.length_append, List.length_cons, Nat.succ_mul]
    omega
  | cut | dropped => cases hplace

/-- The certain bits of a layout are at most those of any of its records. -/
theorem Layout.Spells.certainBits_le {l : Layout} (h : l.Spells ctx p fields pieces (some p')) :
    l.certainBits ≤ (pieces.flatMap Piece.bits).length := by
  induction l generalizing p p' fields pieces with
  | done => exact Nat.zero_le _
  | item head decl rest ih =>
    rcases h with ⟨-, -, -, ⟨⟩⟩ | ⟨node, first, p₁, more, later, hdecl, hrest, -, rfl⟩
    have hfirst := hdecl.certainBits_le
    have hlater := ih hrest
    rw [Layout.certainBits, List.flatMap_append, List.length_append]
    omega
  | group head length body closing rest ihbody ihrest =>
    rcases h with ⟨-, -, -, ⟨⟩⟩ |
      ⟨v, first, ⟨-, -, -, ⟨⟩⟩ | ⟨p₁, more, later, hgroup, hrest, -, rfl⟩⟩
    have hfirst : certainCount length * body.certainBits ≤ (first.flatMap Piece.bits).length := by
      cases hgroup with
      | struct one =>
        rw [certainCount, Nat.one_mul]
        exact ihbody one
      | @counted length _ values es n begun _ hcount all hle heq =>
        have hall := all.certainBits_le fun _ _ _ _ => ihbody
        rw [all.length_eq, heq rfl] at hall
        refine Nat.le_trans (Nat.mul_le_mul_right _ ?_) hall
        cases length with
        | const m => exact Nat.le_of_eq (Option.some.inj (PassContext.count_of_const hcount)).symm
        | computed | unbounded => exact Nat.zero_le n
      | unbounded hcount =>
        rw [PassContext.eq_unbounded_of_count hcount,
          show certainCount (some .unbounded) = 0 from rfl, Nat.zero_mul]
        exact Nat.zero_le _
    have hlater := ihrest hrest
    rw [Layout.certainBits, List.flatMap_append, List.length_append]
    omega

/-! ## Where an unbounded array ends -/

/-- Every unbounded array has ended where no element of eight bits or more could follow. -/
def Roomy (pieces : List Piece) : Prop := ∀ least, Piece.ended least ∈ pieces → 8 ≤ least

theorem Roomy.append {first later : List Piece} (h : Roomy first) (h' : Roomy later) :
    Roomy (first ++ later) := by
  intro least hmem
  rcases List.mem_append.mp hmem with hmem | hmem
  · exact h least hmem
  · exact h' least hmem

theorem Roomy.left {first later : List Piece} (h : Roomy (first ++ later)) : Roomy first :=
  fun least hmem => h least (List.mem_append_left later hmem)

theorem Roomy.right {first later : List Piece} (h : Roomy (first ++ later)) : Roomy later :=
  fun least hmem => h least (List.mem_append_right first hmem)

/-- An element of an unbounded array takes eight bits or more, whatever its width. -/
def Layout.Wide : Layout → Prop
  | done => True
  | item _ decl rest =>
    (∀ type, decl = .value type (some .unbounded) →
      ∀ env w, type.width env = .ok w → 8 ≤ type.leastBits w) ∧ rest.Wide
  | group _ length body _ rest =>
    (length = some .unbounded → 8 ≤ body.certainBits) ∧ body.Wide ∧ rest.Wide

/-- Where there is no unbounded array. -/
theorem Layout.wide_of_bounded {l : Layout} (h : l.endless = false) : l.Wide := by
  induction l with
  | done => trivial
  | item head decl rest ih =>
    simp only [endless, Bool.or_eq_false_iff, beq_eq_false_iff_ne] at h
    refine ⟨?_, ih h.2⟩
    rintro type rfl
    exact absurd rfl h.1
  | group head length body closing rest ihbody ihrest =>
    simp only [endless, Bool.or_eq_false_iff, beq_eq_false_iff_ne] at h
    exact ⟨fun hlength => absurd hlength h.1.1, ihbody h.1.2, ihrest h.2⟩

theorem Elements.Spells.roomy {values : List Value} {begun : Nat}
    (hbody : ∀ p fields pieces place, body p fields pieces place → Roomy pieces)
    (h : Elements.Spells body p values pieces begun place) : Roomy pieces := by
  induction h with
  | nil => exact fun least hmem => by cases hmem
  | next one _ ih => exact (hbody _ _ _ _ one).append ih
  | cut one _ => exact hbody _ _ _ _ one
  | dropped _ => exact fun least hmem => by simp at hmem

/-- A group leaves room: each element of an unbounded one takes a byte. -/
theorem Group.Spells.roomy {certain : Nat} {length : Option Length} {v : Value}
    (hcertain : length = some .unbounded → 8 ≤ certain)
    (hbody : ∀ p fields pieces place, body p fields pieces place → Roomy pieces)
    (h : Group.Spells ctx certain body length p v pieces place) : Roomy pieces := by
  cases h with
  | struct one => exact hbody _ _ _ _ one
  | cut one =>
    unfold Piece.cut
    split
    · exact fun least hmem => by simp at hmem
    · exact hbody _ _ _ _ one
  | counted count all =>
    intro least hmem
    exact all.roomy hbody least (by simpa using hmem)
  | unbounded count all =>
    intro least hmem
    have hwide := hcertain (by rw [PassContext.eq_unbounded_of_count count])
    simp only [List.mem_cons, List.mem_append, List.not_mem_nil, or_false, reduceCtorEq,
      false_or, Piece.ended.injEq] at hmem
    rcases hmem with hmem | rfl
    · exact all.roomy hbody least hmem
    · omega

/-- A record of a layout whose unbounded array has elements of eight bits or more. -/
theorem Layout.Spells.roomy {l : Layout} (hwide : l.Wide) (h : l.Spells ctx p fields pieces place) :
    Roomy pieces := by
  induction l generalizing p fields pieces place with
  | done =>
    obtain ⟨-, rfl, -⟩ := h
    exact fun least hmem => by cases hmem
  | item head decl rest ih =>
    rcases h with ⟨-, -, rfl, -⟩ | ⟨node, first, p₁, more, later, hdecl, hrest, -, rfl⟩
    · exact fun least hmem => by cases hmem
    · refine Roomy.append ?_ (ih hwide.2 hrest)
      intro least hmem
      cases hdecl with
      | @unbounded type length w v _ hwidth hcount =>
        have hleast : least = type.leastBits w := by simpa using hmem
        rw [hleast]
        exact hwide.1 type (by rw [PassContext.eq_unbounded_of_count hcount]) _ w hwidth
      | _ => simp at hmem
  | group head length body closing rest ihbody ihrest =>
    obtain ⟨hcertain, hbody, hrest⟩ := hwide
    rcases h with ⟨-, -, rfl, -⟩ |
      ⟨v, first, ⟨hgroup, -, rfl, -⟩ | ⟨p₁, more, later, hgroup, hlater, -, rfl⟩⟩
    · exact fun least hmem => by cases hmem
    · exact hgroup.roomy hcertain fun _ _ _ _ => ihbody hbody
    · exact (hgroup.roomy hcertain fun _ _ _ _ => ihbody hbody).append (ihrest hrest hlater)

end RecordLayout
