import RecordLayout.Proofs.Layout.Supply
import RecordLayout.Proofs.Pass.WriteComplete
import RecordLayout.Proofs.Pass.WriteSimulation

/-!
# Numbers that are left out

The items of a tree tell the number of elements of each structure array, values alone do not. A
strict pass need not be told: a length that is known has to agree with the number, and an unbounded
array goes on while there are values, which is as long as it has elements if each of them takes one.
So a pass over all items of a tree and a pass over the values among them write the same.
-/

namespace RecordLayout

namespace Item

/-- The value, if the item is one. -/
def value? : Item → Option Value
  | value v => some v
  | elements _ => none

/-- The values among items. -/
def values (items : List Item) : List Value := items.filterMap value?

theorem values_append (items more : List Item) :
    values (items ++ more) = values items ++ values more :=
  List.filterMap_append

theorem filter_isValue (items : List Item) : items.filter isValue = (values items).map value := by
  induction items with
  | nil => rfl
  | cons item items ih =>
    cases item with
    | value v => exact congrArg (Item.value v :: ·) ih
    | elements n => exact ih

end Item

/-- The nodes of each structure that a value consists of. -/
def Value.structures : Value → List (List Field)
  | .list items => items.filterMap asStruct
  | v => v.asStruct.toList

/-- The feeds have written the same, and one has these items left, the other these values. -/
structure Feed.Beside (items : List Item) (values : List Value) (f f' : Feed) : Prop where
  writer : f'.writer = f.writer
  items : f.items = items
  values : f'.items = values.map .value

namespace Encode

variable {α β : Type} {ctx : PassContext} {head : Header} {items more : List Item}
  {values : List Value} {lost : Error → Prop}

/-- The passes have come to the same place, with these items and these values left. -/
abbrev Beside (items : List Item) (values : List Value) : PassState Feed → PassState Feed → Prop :=
  PassState.Along (Feed.Beside items values)

/-! ## Operations that take no item -/

theorem count_beside (f f' : Feed) (h : f.Beside items values f') :
    ByteCounter.count f' = ByteCounter.count f :=
  congrArg Writer.streamCount h.writer

theorem foretells_onWriter (m : WriteM α) : Foretells lost (Beside items values) (onWriter m) := by
  refine PassM.foretells_onStream fun f f' hf => ?_
  rw [hf.writer]
  cases m f.writer with
  | ok x w => exact ⟨_, rfl, rfl, hf.items, hf.values⟩
  | error e w => exact .inr ⟨_, rfl⟩

theorem writesAlike_beside (items : List Item) (values : List Value) (ctx : PassContext) :
    WritesAlike lost (Feed.Beside items values) ctx where
  count := count_beside
  put _ _ _ _ := foretells_onWriter _
  bytes _ := foretells_onWriter _

theorem foretells_value (type : ElementType) (length : Option Length) (v : Value) :
    Foretells lost (Beside items values) (value ctx head type length v) :=
  (writesAlike_beside items values ctx).valueParts.value (fun _ _ _ _ _ => foretells_onWriter _)
    length v

/-! ## Operations that take items -/

/-- What the first operation does with the items, the second does with the values among them: both
take all of them and give `x`, if the first succeeds. Behind the last part of a record there must be
no value left. -/
def Packs (x : α) (last : Bool) (items : List Item) (m m' : PassM Feed α) : Prop :=
  ∀ more later s s', (last = true → later = []) →
    Beside (items ++ more) (Item.values items ++ later) s s' →
    ∀ y t, m s = .ok y t → y = x ∧ ∃ t', m' s' = .ok x t' ∧ Beside more later t t'

namespace Packs

variable {x : α} {y : β} {last : Bool} {m m' : PassM Feed α} {g g' : α → PassM Feed β}

theorem pure (x : α) (last : Bool) : Packs x last [] (Pure.pure x) (Pure.pure x) := by
  rintro more later s s' - hs y t ⟨⟩
  exact ⟨rfl, s', rfl, hs⟩

theorem of_foretells {m : PassM Feed Unit}
    (h : ∀ items values, Foretells (fun _ => False) (Beside items values) m) :
    Packs () false [] m m := by
  intro more later s s' _ hs y t hrun
  have hm := h _ _ s s' hs
  rw [hrun] at hm
  exact ⟨rfl, hm⟩

theorem mono (h : Packs x last items m m') {last' : Bool} (himp : last = true → last' = true) :
    Packs x last' items m m' :=
  fun more later s s' hlater => h more later s s' fun hlast => hlater (himp hlast)

theorem bind (hm : Packs x last items m m') (hlast : last = true → more = [])
    {last' : Bool} (hg : Packs y last' more (g x) (g' x)) :
    Packs y (last || last') (items ++ more) (m >>= g) (m' >>= g') := by
  intro rest later s s' hlater hs z t hrun
  obtain ⟨a, s₁, hfirst, hsecond⟩ := bind_eq_ok.mp hrun
  rw [Item.values_append, List.append_assoc, List.append_assoc] at hs
  have hbehind : last = true → Item.values more ++ later = [] := by
    intro h
    rw [hlast h, hlater (by rw [h]; rfl)]
    rfl
  obtain ⟨rfl, s₁', hfirst', hs₁⟩ := hm _ _ _ _ hbehind hs _ _ hfirst
  rw [bind_of_ok hfirst']
  exact hg _ _ _ _ (fun h => hlater (by rw [h, Bool.or_true])) hs₁ _ _ hsecond

/-- Only the last part to take a value cares what is left behind it. -/
theorem run (h : Packs x false items m m') {later : List Value} {s s' t : PassState Feed} {z : α}
    (hs : Beside (items ++ more) (Item.values items ++ later) s s') (hrun : m s = .ok z t) :
    z = x ∧ ∃ t', m' s' = .ok x t' ∧ Beside more later t t' :=
  h more later s s' (fun hlast => by cases hlast) hs z t hrun

theorem seq (hm : Packs x false items m m') (hg : Packs y last more (g x) (g' x)) :
    Packs y last (items ++ more) (m >>= g) (m' >>= g') := by
  have hboth := hm.bind (fun hlast => by cases hlast) hg
  rwa [Bool.false_or] at hboth

end Packs

theorem packs_endsBefore (hstrict : ctx.options.lenient = false) (holds : Bool) :
    Packs false false [] (endsBefore ctx holds) (endsBefore ctx holds) := by
  rintro more later s s' - hs y t hrun
  simp only [endsBefore_apply, hstrict, Bool.false_and] at hrun ⊢
  cases hrun
  exact ⟨rfl, s', rfl, hs⟩

theorem packs_nextValue (declaration : String) (v : Value) :
    Packs v false [.value v] (nextValue declaration) (nextValue declaration) := by
  rintro more later s s' - ⟨⟨hwriter, hitems, hvalues⟩, hnumbers⟩ y t hrun
  rw [nextValue_of_cons hitems] at hrun
  cases hrun
  exact ⟨rfl, _, nextValue_of_cons hvalues _, ⟨hwriter, rfl, rfl⟩, hnumbers⟩

/-- A declaration other than a structure takes the item of its node. -/
theorem packs_item (decl : Decl) (node : Field) :
    Packs () false (Item.ofNode decl node) (item ctx head decl) (item ctx head decl) := by
  have hparts : ∀ items values, PassM.Parts ctx fun m =>
      Foretells (fun _ => False) (Beside items values) m :=
    fun _ _ => PassM.foretells_parts count_beside
  cases decl with
  | value type length =>
    rw [Item.ofNode, if_pos (Decl.holdsValue_value type length)]
    exact (packs_nextValue _ node.value).seq
      (.of_foretells fun _ _ => foretells_value type length node.value)
  | computed amount =>
    exact .of_foretells fun items values =>
      ((hparts items values).amount amount).bind fun n => PassM.foretells_register _ _
  | align a =>
    exact .of_foretells fun items values =>
      ((hparts items values).alignment a).bind fun n => foretells_onWriter _
  | skip a =>
    exact .of_foretells fun items values =>
      ((hparts items values).skipCount a).bind fun n => foretells_onWriter _
  | reset => exact .of_foretells fun _ _ => foretells_onWriter _

variable {body : PassM Feed Flow}

/-- An array that goes on while there are values has as many elements as the items tell, if the
first one takes a value and the others are so many. -/
theorem packs_whileItems_succ {count : Nat} {idle : Error}
    (hbody : Packs .goOn false items body body) (hsome : Item.values items ≠ [])
    (hmore : Packs .goOn true more (times body count) (whileItems idle body)) :
    Packs .goOn true (items ++ more) (times body (count + 1)) (whileItems idle body) := by
  intro rest later s s' hlater hs flow t hrun
  obtain ⟨flow₁, s₁, hfirst, hrun⟩ := bind_eq_ok.mp hrun
  rw [Item.values_append, List.append_assoc, List.append_assoc] at hs
  obtain ⟨rfl, s₁', hfirst', hs₁⟩ := hbody.run hs hfirst
  obtain ⟨rfl, t', hmore', ht⟩ := hmore _ _ _ _ hlater hs₁ _ _ hrun
  refine ⟨rfl, t', ?_, ht⟩
  have hlength := congrArg List.length hs.1.values
  have hlength₁ := congrArg List.length hs₁.1.values
  have hpos := List.length_pos_of_ne_nil hsome
  simp only [List.length_map, List.length_append] at hlength hlength₁
  have hempty : ¬ s'.stream.items.isEmpty = true := by
    rw [List.isEmpty_iff_length_eq_zero]
    omega
  have hless : s₁'.stream.items.length < s'.stream.items.length := by omega
  rw [whileItems, if_neg hempty, hfirst']
  dsimp only
  rw [if_pos hless, hmore']

theorem packs_whileItems_nil (idle : Error) :
    Packs .goOn true [] (times body 0) (whileItems idle body) := by
  rintro more later s s' hlater hs flow t ⟨⟩
  obtain rfl := hlater rfl
  refine ⟨rfl, s', ?_, hs⟩
  have hnil : s'.stream.items = [] := hs.1.values
  rw [whileItems, hnil, List.isEmpty_nil, if_pos rfl]

/-- In front of values nobody has told a number of elements. -/
theorem toldCount_of_values {s : PassState Feed} (h : s.stream.items = values.map .value) :
    toldCount s = .ok none s := by
  have hremaining : remaining s = .ok s.stream.items s := rfl
  rw [toldCount, bind_of_ok hremaining, h]
  cases values <;> rfl

/-- The length of an array is the same for both passes. -/
theorem arrayCount_beside {length : Length} {count : Option Nat} {s s' t : PassState Feed}
    (hs : Beside items values s s') (h : PassM.arrayCount ctx length s = .ok count t) :
    (count = none → length = .unbounded) ∧
      ∃ t', PassM.arrayCount ctx length s' = .ok count t' ∧ Beside items values t t' := by
  have hcount : Foretells (fun _ => False) (Beside items values) (PassM.arrayCount ctx length) :=
    (PassM.foretells_parts count_beside).arrayCount length
  have hrun := hcount s s' hs
  rw [h] at hrun
  refine ⟨?_, hrun⟩
  rintro rfl
  exact PassContext.eq_unbounded_of_count ((PassM.computes_arrayCount ctx s length).eq_ok h).1

/-- An array of structures, whose number of elements the items tell and the values do not. -/
theorem packs_array (hstrict : ctx.options.lenient = false) {length : Length} {count : Nat}
    (htimes : Packs .goOn false items (times body count) (times body count))
    (hwhile : length = .unbounded → ∀ idle,
      Packs .goOn true items (times body count) (whileItems idle body)) :
    Packs .goOn (length == .unbounded) (.elements count :: items)
      (group ctx head (some length) body) (group ctx head (some length) body) := by
  intro more later s s' hlater hs flow t hrun
  obtain ⟨expected, s₁, hexpected, hrun⟩ := bind_eq_ok.mp hrun
  obtain ⟨hunbounded, s₁', hexpected', hs₁⟩ := arrayCount_beside hs hexpected
  obtain ⟨⟨hwriter, hitems, hvalues⟩, hnumbers⟩ := hs₁
  rw [bind_of_ok (toldCount_of_cons hitems)] at hrun
  have hs₂ : Beside (items ++ more) (Item.values items ++ later)
      { s₁ with stream := { s₁.stream with items := items ++ more } } s₁' :=
    ⟨⟨hwriter, rfl, hvalues⟩, hnumbers⟩
  cases expected with
  | some n =>
    have hgroup : group ctx head (some length) body s' = times body n s₁' :=
      (bind_of_ok hexpected').trans (bind_of_ok (toldCount_of_values hvalues))
    rw [hgroup]
    dsimp only at hrun
    by_cases hn : n = count
    · rw [if_pos hn] at hrun
      rw [hn]
      exact htimes.run hs₂ hrun
    · rw [if_neg hn, hstrict] at hrun
      cases hrun
  | none =>
    have hgroup : group ctx head (some length) body s' =
        whileItems (.takesNoValues (head.describe Kind.opening.name)) body s₁' :=
      (bind_of_ok hexpected').trans (bind_of_ok (toldCount_of_values hvalues))
    rw [hgroup]
    have hlength := hunbounded rfl
    exact hwhile hlength _ _ _ _ _ (fun _ => hlater (by rw [hlength]; rfl)) hs₂ _ _ hrun

variable {ofBody : List Field → Except Error Item.Laid}

/-- The elements of an array are packed one by one. -/
theorem packs_times {shape : Error} {values : List Value}
    (hbody : ∀ nodes ∈ (Value.list values).structures, ∀ items, ofBody nodes = .ok (items, true) →
      Packs .goOn false items body body)
    (h : Item.ofElements shape ofBody values = .ok (items, true)) :
    Packs .goOn false items (times body values.length) (times body values.length) := by
  induction values generalizing items with
  | nil =>
    cases h
    exact .pure _ _
  | cons v values ih =>
    obtain ⟨nodes, first, more, rfl, hfirst, hmore, rfl⟩ := Item.ofElements_cons h
    obtain ⟨hnodes, hlater⟩ := List.forall_mem_cons.mp hbody
    exact (hnodes first hfirst).seq (ih hlater hmore)

/-- An unbounded array packs its elements one by one, as long as each of them has a value. -/
theorem packs_whileItems {shape idle : Error} {values : List Value}
    (hbody : ∀ nodes ∈ (Value.list values).structures, ∀ items, ofBody nodes = .ok (items, true) →
      Packs .goOn false items body body ∧ Item.values items ≠ [])
    (h : Item.ofElements shape ofBody values = .ok (items, true)) :
    Packs .goOn true items (times body values.length) (whileItems idle body) := by
  induction values generalizing items with
  | nil =>
    cases h
    exact packs_whileItems_nil idle
  | cons v values ih =>
    obtain ⟨nodes, first, more, rfl, hfirst, hmore, rfl⟩ := Item.ofElements_cons h
    obtain ⟨hnodes, hlater⟩ := List.forall_mem_cons.mp hbody
    obtain ⟨hpacks, hsome⟩ := hnodes first hfirst
    exact packs_whileItems_succ hpacks hsome (ih hlater hmore)

/-- A structure or an array of them, given that each structure is packed. -/
theorem packs_group (hstrict : ctx.options.lenient = false) {length : Option Length} {v : Value}
    {last : Bool} (honce : length.isSome = true → last = false)
    (hbody : ∀ nodes ∈ v.structures, ∀ items, ofBody nodes = .ok (items, true) →
      Packs .goOn last items body body ∧ (length = some .unbounded → Item.values items ≠ []))
    (h : Item.ofGroup head length ofBody v = .ok (items, true)) :
    Packs .goOn (length == some .unbounded || last) items
      (group ctx head length body) (group ctx head length body) := by
  cases length with
  | none =>
    cases v with
    | struct nodes => exact (hbody nodes List.mem_cons_self items h).1
    | _ => cases h
  | some length =>
    cases v with
    | list values =>
      obtain ⟨⟨laid, whole⟩, hlaid, h⟩ := except_bind_eq_ok.mp h
      cases h
      rw [honce rfl] at hbody ⊢
      rw [Bool.or_false]
      refine packs_array hstrict ?_ ?_
      · exact packs_times (fun nodes hnodes its hits => (hbody nodes hnodes its hits).1) hlaid
      · rintro rfl idle
        exact packs_whileItems (fun nodes hnodes its hits =>
          (hbody nodes hnodes its hits).imp_right fun h => h rfl) hlaid
    | _ => cases h

end Encode

end RecordLayout
