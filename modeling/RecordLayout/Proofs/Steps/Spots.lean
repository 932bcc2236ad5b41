import RecordLayout.Pass.Items
import RecordLayout.Proofs.Layout.Scoping
import RecordLayout.Proofs.Outcome

/-!
# Where items belong

The items of a tree are a bare sequence of values and counts. Here each of them stands with its spot:
the declaration that it is laid out for, and the element of every structure array around it. A tree
that the layout accepts is laid out with the same items as without spots, and no two of them have the
same spot.
-/

namespace RecordLayout

/-- Where an item of a record belongs. -/
structure Spot where
  /-- The elements around it, the innermost first: the index of each array and the number of the
  element in it. -/
  within : List (Nat × Nat)
  /-- The index of the declaration that the item is for. -/
  declaration : Nat
  deriving DecidableEq, Repr

/-- The declaration with this index takes such an item: a declaration that holds a value takes a
value, a structure array the number of its elements. -/
def Layout.Wants : Layout → Nat → Item → Prop
  | .done, _, _ => False
  | .item head decl rest, i, x =>
    (head.index = i ∧ decl.kind.holdsValue = true ∧ ∃ v, x = .value v) ∨ rest.Wants i x
  | .group head length body _ rest, i, x =>
    (head.index = i ∧ length.isSome = true ∧ ∃ n, x = .elements n) ∨
      body.Wants i x ∨ rest.Wants i x

namespace Spot

/-- The items of a part of a tree with their spots, and whether the tree goes on behind it. -/
abbrev Laid := List (Spot × Item) × Bool

/-- One part behind another, which counts only if the tree goes on. -/
def andThen (first second : Laid) : Laid :=
  if first.2 then (first.1 ++ second.1, second.2) else first

/-- The items of the elements of a structure array from the one with the number `k` on. -/
def ofElements (body : Nat → List Field → Laid) : (k : Nat) → List Value → Laid
  | _, [] => ([], true)
  | k, .struct fields :: rest => andThen (body k fields) (ofElements body (k + 1) rest)
  | _, _ :: _ => ([], false)

/-- The items of a structure or an array of structures. -/
def ofGroup (spot : Spot) (length : Option Length) (body : List (Nat × Nat) → List Field → Laid)
    (v : Value) : Laid :=
  match length, v with
  | none, .struct fields => body spot.within fields
  | some _, .list items =>
    let laid := ofElements (fun k => body ((spot.declaration, k) :: spot.within)) 0 items
    ((spot, .elements items.length) :: laid.1, laid.2)
  | _, _ => ([], false)

/-- The items of the nodes of a layout. Where a node does not fit, the tree is taken to end. -/
def ofFields : Layout → List (Nat × Nat) → List Field → Laid
  | .done, _, _ => ([], true)
  | .item head decl rest, within, nodes =>
    if decl.kind.isDirective then ofFields rest within nodes
    else
      match nodes with
      | [] => ([], false)
      | node :: nodes =>
        andThen ((Item.ofNode decl node).map (⟨within, head.index⟩, ·), true)
          (ofFields rest within nodes)
  | .group _ _ _ _ _, _, [] => ([], false)
  | .group head length body _ rest, within, node :: nodes =>
    andThen (ofGroup ⟨within, head.index⟩ length (ofFields body) node.value)
      (ofFields rest within nodes)

/-- The items of a tree. -/
def ofTree (layout : Layout) (tree : Field) : Laid :=
  match tree.value with
  | .struct fields => ofFields layout [] fields
  | _ => ([], false)

/-! ## Items without their spots -/

/-- What is laid out, without the spots. -/
def bare (laid : Laid) : Item.Laid := (laid.1.map Prod.snd, laid.2)

/-- Parts one behind the other have the items of the parts. -/
theorem bare_andThen {first : Item.Laid} {second : Unit → Except Error Item.Laid}
    {first' second' : Laid} {laid : Item.Laid} (h : Item.andThen first second = .ok laid)
    (hfirst : bare first' = first) (hsecond : ∀ more, second () = .ok more → bare second' = more) :
    bare (andThen first' second') = laid := by
  subst hfirst
  unfold Item.andThen at h
  rw [show (bare first').2 = first'.2 from rfl] at h
  by_cases hwhole : first'.2 = true
  · rw [if_pos hwhole] at h
    obtain ⟨more, hmore, hlaid⟩ := except_bind_eq_ok.mp h
    cases hlaid
    rw [andThen, if_pos hwhole, ← hsecond more hmore]
    exact Prod.ext (List.map_append ..) rfl
  · rw [if_neg hwhole] at h
    cases h
    rw [andThen, if_neg hwhole]

/-- The elements of an array have the items of the elements, by induction over them. -/
theorem bare_ofElements {shape : Error} {body : List Field → Except Error Item.Laid}
    {body' : Nat → List Field → Laid}
    (hbody : ∀ k fields laid, body fields = .ok laid → bare (body' k fields) = laid)
    {items : List Value} {laid : Item.Laid} (k : Nat)
    (h : Item.ofElements shape body items = .ok laid) : bare (ofElements body' k items) = laid := by
  induction items generalizing k laid with
  | nil =>
    cases h
    rfl
  | cons v items ih =>
    cases v with
    | struct fields =>
      obtain ⟨first, hfirst, h⟩ := except_bind_eq_ok.mp h
      exact bare_andThen h (hbody k fields first hfirst) fun more hmore => ih (k + 1) hmore
    | _ => cases h

theorem bare_ofGroup {head : Header} {spot : Spot} {length : Option Length}
    {body : List Field → Except Error Item.Laid} {body' : List (Nat × Nat) → List Field → Laid}
    (hbody : ∀ within fields laid, body fields = .ok laid → bare (body' within fields) = laid)
    {v : Value} {laid : Item.Laid} (h : Item.ofGroup head length body v = .ok laid) :
    bare (ofGroup spot length body' v) = laid := by
  unfold Item.ofGroup at h
  split at h
  · exact hbody _ _ _ h
  · rename_i items
    obtain ⟨elements, helements, hlaid⟩ := except_bind_eq_ok.mp h
    cases hlaid
    have hbare := bare_ofElements (fun k => hbody ((spot.declaration, k) :: spot.within)) 0 helements
    rw [← hbare]
    rfl
  · cases h

/-- A layout has the same items with spots as without. -/
theorem bare_ofFields {l : Layout} {nodes : List Field} {laid : Item.Laid}
    (within : List (Nat × Nat)) (h : Item.ofFields l nodes = .ok laid) :
    bare (ofFields l within nodes) = laid := by
  induction l generalizing nodes laid within with
  | done =>
    cases nodes with
    | nil =>
      cases h
      rfl
    | cons => cases h
  | item head decl rest ih =>
    unfold Item.ofFields at h
    unfold ofFields
    split at h
    · rename_i hdirective
      rw [if_pos hdirective]
      exact ih within h
    · rename_i hdirective
      rw [if_neg hdirective]
      cases nodes with
      | nil =>
        cases h
        rfl
      | cons node nodes =>
        obtain ⟨-, -, h⟩ := except_bind_eq_ok.mp h
        refine bare_andThen h ?_ fun more hmore => ih within hmore
        refine Prod.ext ?_ rfl
        simp [bare, Function.comp_def]
  | group head length body closing rest ihbody ihrest =>
    cases nodes with
    | nil =>
      cases h
      rfl
    | cons node nodes =>
      obtain ⟨-, -, h⟩ := except_bind_eq_ok.mp h
      obtain ⟨first, hfirst, h⟩ := except_bind_eq_ok.mp h
      exact bare_andThen h (bare_ofGroup (fun within _ _ => ihbody within) hfirst)
        fun more hmore => ihrest within hmore

/-- A tree that the layout accepts is laid out with the same items. -/
theorem bare_ofTree {l : Layout} {tree : Field} {laid : Item.Laid}
    (h : Item.ofTree l tree = .ok laid) : bare (ofTree l tree) = laid := by
  unfold Item.ofTree at h
  unfold ofTree
  cases hv : tree.value with
  | struct fields =>
    rw [hv] at h
    exact bare_ofFields [] h
  | _ =>
    rw [hv] at h
    cases h

/-! ## What declarations take -/

section

variable {P : Spot × Item → Prop}

/-- What holds of the items of two parts holds of all. -/
theorem forall_andThen {first second : Laid} (hfirst : ∀ p ∈ first.1, P p)
    (hsecond : ∀ p ∈ second.1, P p) : ∀ p ∈ (andThen first second).1, P p := by
  unfold andThen
  split
  · exact fun p hp => (List.mem_append.mp hp).elim (hfirst p) (hsecond p)
  · exact hfirst

theorem forall_ofElements {body : Nat → List Field → Laid}
    (hbody : ∀ k fields, ∀ p ∈ (body k fields).1, P p) (k : Nat) (items : List Value) :
    ∀ p ∈ (ofElements body k items).1, P p := by
  induction items generalizing k with
  | nil => simp [ofElements]
  | cons v items ih =>
    cases v with
    | struct fields => exact forall_andThen (hbody k fields) (ih (k + 1))
    | _ => simp [ofElements]

end

/-- Every item is of the sort that its declaration takes. -/
theorem wants_ofFields (l : Layout) (within : List (Nat × Nat)) (nodes : List Field) :
    ∀ p ∈ (ofFields l within nodes).1, l.Wants p.1.declaration p.2 := by
  induction l generalizing within nodes with
  | done => simp [ofFields]
  | item head decl rest ih =>
    unfold ofFields
    split
    · exact fun p hp => .inr (ih within nodes p hp)
    · cases nodes with
      | nil => simp
      | cons node nodes =>
        refine forall_andThen (fun p hp => ?_) fun p hp => .inr (ih within nodes p hp)
        obtain ⟨item, hitem, rfl⟩ := List.mem_map.mp hp
        unfold Item.ofNode at hitem
        split at hitem
        · rename_i hholds
          cases List.mem_singleton.mp hitem
          exact .inl ⟨rfl, hholds, node.value, rfl⟩
        · cases hitem
  | group head length body closing rest ihbody ihrest =>
    cases nodes with
    | nil => simp [ofFields]
    | cons node nodes =>
      refine forall_andThen (fun p hp => ?_) fun p hp => .inr (.inr (ihrest within nodes p hp))
      unfold ofGroup at hp
      split at hp
      · exact .inr (.inl (ihbody within _ p hp))
      · rename_i items _
        rcases List.mem_cons.mp hp with rfl | hp
        · exact .inl ⟨rfl, rfl, items.length, rfl⟩
        · exact .inr (.inl (forall_ofElements
            (P := fun p => body.Wants p.1.declaration p.2) (fun k => ihbody _) 0 items p hp))
      · cases hp

/-- Every item of a tree is of the sort that its declaration takes. -/
theorem wants_ofTree (l : Layout) (tree : Field) :
    ∀ p ∈ (ofTree l tree).1, l.Wants p.1.declaration p.2 := by
  unfold ofTree
  split
  · exact wants_ofFields l [] _
  · simp

/-! ## No spot twice -/

/-- The spots belong to declarations with indexes from `lower` up to `upper` inside these elements,
and there is no spot twice. -/
structure Apart (lower upper : Nat) (within : List (Nat × Nat)) (laid : Laid) : Prop where
  lower : ∀ p ∈ laid.1, lower ≤ p.1.declaration
  upper : ∀ p ∈ laid.1, p.1.declaration < upper
  inside : ∀ p ∈ laid.1, within <:+ p.1.within
  nodup : (laid.1.map Prod.fst).Nodup

variable {lower middle upper : Nat} {within : List (Nat × Nat)} {first second : Laid}

theorem apart_nil (whole : Bool) : Apart lower upper within ([], whole) :=
  ⟨by simp, by simp, by simp, .nil⟩

theorem Apart.mono {lower' upper' : Nat} (h : Apart lower upper within first)
    (hlower : lower' ≤ lower) (hupper : upper ≤ upper') : Apart lower' upper' within first :=
  ⟨fun p hp => hlower.trans (h.lower p hp), fun p hp => (h.upper p hp).trans_le hupper, h.inside,
    h.nodup⟩

/-- An item in front of those of later declarations. -/
theorem Apart.cons (spot : Spot) (item : Item) (hwithin : within <:+ spot.within)
    (h : Apart (spot.declaration + 1) upper within first) (hupper : spot.declaration < upper) :
    Apart spot.declaration upper within ((spot, item) :: first.1, first.2) := by
  refine ⟨?_, ?_, ?_, ?_⟩
  · intro p hp
    rcases List.mem_cons.mp hp with rfl | hp
    · exact Nat.le_refl _
    · exact (Nat.le_succ _).trans (h.lower p hp)
  · intro p hp
    rcases List.mem_cons.mp hp with rfl | hp
    · exact hupper
    · exact h.upper p hp
  · intro p hp
    rcases List.mem_cons.mp hp with rfl | hp
    · exact hwithin
    · exact h.inside p hp
  · refine List.nodup_cons.mpr ⟨fun hmem => ?_, h.nodup⟩
    obtain ⟨p, hp, hspot⟩ := List.mem_map.mp hmem
    have hlower := h.lower p hp
    rw [hspot] at hlower
    exact Nat.lt_irrefl _ hlower

/-- One part behind another that has none of its spots. -/
theorem Apart.andThen_of_disjoint (hfirst : Apart lower upper within first)
    (hsecond : Apart lower upper within second)
    (hdisjoint : ∀ p ∈ first.1, ∀ q ∈ second.1, p.1 ≠ q.1) :
    Apart lower upper within (andThen first second) := by
  unfold andThen
  split
  · refine ⟨?_, ?_, ?_, ?_⟩
    · exact fun p hp => (List.mem_append.mp hp).elim (hfirst.lower p) (hsecond.lower p)
    · exact fun p hp => (List.mem_append.mp hp).elim (hfirst.upper p) (hsecond.upper p)
    · exact fun p hp => (List.mem_append.mp hp).elim (hfirst.inside p) (hsecond.inside p)
    · rw [List.map_append]
      refine List.Nodup.append hfirst.nodup hsecond.nodup fun spot hspot hspot' => ?_
      obtain ⟨p, hp, rfl⟩ := List.mem_map.mp hspot
      obtain ⟨q, hq, heq⟩ := List.mem_map.mp hspot'
      exact hdisjoint p hp q hq heq.symm
  · exact hfirst

/-- The items of earlier declarations in front of those of later ones. -/
theorem Apart.andThen (hfirst : Apart lower middle within first)
    (hsecond : Apart middle upper within second) (hlower : lower ≤ middle)
    (hupper : middle ≤ upper) : Apart lower upper within (andThen first second) := by
  refine (hfirst.mono (Nat.le_refl _) hupper).andThen_of_disjoint
    (hsecond.mono hlower (Nat.le_refl _)) fun p hp q hq heq => ?_
  have hbefore := hfirst.upper p hp
  have hbehind := hsecond.lower q hq
  rw [heq] at hbefore
  exact Nat.lt_irrefl _ (hbefore.trans_le hbehind)

/-- Each element of an array has spots of its own. -/
theorem apart_elements {array : Nat} {body : Nat → List Field → Laid}
    (hbody : ∀ k fields, Apart lower upper ((array, k) :: within) (body k fields)) (k : Nat)
    (items : List Value) :
    Apart lower upper within (ofElements body k items) ∧
      ∀ p ∈ (ofElements body k items).1, ∃ j, k ≤ j ∧ (array, j) :: within <:+ p.1.within := by
  induction items generalizing k with
  | nil => exact ⟨apart_nil true, by simp [ofElements]⟩
  | cons v items ih =>
    cases v with
    | struct fields =>
      obtain ⟨hrest, hlater⟩ := ih (k + 1)
      have hfirst := hbody k fields
      refine ⟨?_, fun p hp => ?_⟩
      · have hinside : Apart lower upper within (body k fields) :=
          { hfirst with inside := fun p hp => (List.suffix_cons _ _).trans (hfirst.inside p hp) }
        refine hinside.andThen_of_disjoint hrest fun p hp q hq heq => ?_
        obtain ⟨j, hj, hsuffix⟩ := hlater q hq
        have hsame : (array, k) :: within = (array, j) :: within := by
          have hp := hfirst.inside p hp
          rw [heq] at hp
          exact (List.suffix_of_suffix_length_le hp hsuffix (Nat.le_refl _)).eq_of_length rfl
        cases hsame
        exact Nat.not_succ_le_self k hj
      · have hmem : p ∈ (body k fields).1 ∨ p ∈ (ofElements body (k + 1) items).1 := by
          rw [ofElements, Spot.andThen] at hp
          split at hp
          · exact List.mem_append.mp hp
          · exact .inl hp
        rcases hmem with hp | hp
        · exact ⟨k, Nat.le_refl k, hfirst.inside p hp⟩
        · obtain ⟨j, hj, hsuffix⟩ := hlater p hp
          exact ⟨j, Nat.le_of_succ_le hj, hsuffix⟩
    | _ => exact ⟨apart_nil false, by simp [ofElements]⟩

/-- No spot inside a structure is that of the structure, and no two elements of an array share one.
-/
theorem apart_group (spot : Spot) {body : List (Nat × Nat) → List Field → Laid}
    (hbody : ∀ within fields, Apart (spot.declaration + 1) upper within (body within fields))
    (hupper : spot.declaration < upper) (length : Option Length) (v : Value) :
    Apart spot.declaration upper spot.within (ofGroup spot length body v) := by
  unfold ofGroup
  split
  · exact (hbody _ _).mono (Nat.le_succ _) (Nat.le_refl _)
  · rename_i items
    have helements := (apart_elements (fun k => hbody ((spot.declaration, k) :: spot.within)) 0 items).1
    exact helements.cons spot _ (List.suffix_refl _) hupper
  · exact apart_nil false

/-- The spots of a layout whose declarations have indexes of their own. -/
theorem apart_fields {customs : List CustomType} {l : Layout} {n : Nat} {seen : List Declared}
    (hscoped : l.Scoped customs n seen) (within : List (Nat × Nat)) (nodes : List Field) :
    Apart n (n + l.size) within (ofFields l within nodes) := by
  induction l generalizing n seen within nodes with
  | done => exact apart_nil true
  | item head decl rest ih =>
    obtain ⟨hhead, -, -, hrest⟩ := hscoped
    have hlast : n + 1 + rest.size = n + (Layout.item head decl rest).size := by
      rw [Layout.size, Nat.add_assoc]
    unfold ofFields
    split
    · exact (ih hrest within nodes).mono (Nat.le_succ n) hlast.le
    · cases nodes with
      | nil => exact apart_nil false
      | cons node nodes =>
        have hfirst : Apart n (n + 1) within
            ((Item.ofNode decl node).map (⟨within, head.index⟩, ·), true) := by
          unfold Item.ofNode
          split
          · have hcons := (apart_nil true).cons ⟨within, head.index⟩ (.value node.value)
              (List.suffix_refl within) (Nat.lt_succ_self head.index)
            rwa [hhead.index] at hcons ⊢
          · exact apart_nil true
        rw [← hlast]
        exact hfirst.andThen (ih hrest within nodes) (Nat.le_succ n) (Nat.le_add_right _ _)
  | group head length body closing rest ihbody ihrest =>
    obtain ⟨hhead, -, hbody, hrest⟩ := hscoped
    have hlast : n + 2 + body.size + rest.size = n + (Layout.group head length body closing rest).size := by
      rw [Layout.size]
      omega
    cases nodes with
    | nil => exact apart_nil false
    | cons node nodes =>
      have hfirst : Apart n (n + 2 + body.size) within
          (ofGroup ⟨within, head.index⟩ length (ofFields body) node.value) := by
        rw [← hhead.index] at hbody ⊢
        refine apart_group ⟨within, head.index⟩ (fun within fields => ?_) ?_ length node.value
        · exact (ihbody hbody within fields).mono (Nat.le_refl _) (by omega)
        · show head.index < head.index + 2 + body.size
          omega
      rw [← hlast]
      exact hfirst.andThen (ihrest hrest within nodes) (by omega) (Nat.le_add_right _ _)

/-- No two items of a tree have the same spot. -/
theorem nodup_ofTree {customs : List CustomType} {l : Layout} (hscoped : l.Scoped customs 0 [])
    (tree : Field) : ((ofTree l tree).1.map Prod.fst).Nodup := by
  unfold ofTree
  split
  · exact (apart_fields hscoped [] _).nodup
  · exact .nil

end Spot

namespace Layout

variable {customs : List CustomType} {l : Layout} {n i : Nat} {seen : List Declared}

/-- The declarations that take items have indexes of the layout. -/
theorem Wants.bounds {x : Item} (h : l.Wants i x) (hscoped : l.Scoped customs n seen) :
    n ≤ i ∧ i < n + l.size := by
  induction l generalizing n seen with
  | done => exact h.elim
  | item head decl rest ih =>
    obtain ⟨hhead, -, -, hrest⟩ := hscoped
    have hindex := hhead.index
    rw [size]
    rcases h with ⟨hi, -⟩ | h
    · omega
    · have := ih h hrest
      omega
  | group head length body closing rest ihbody ihrest =>
    obtain ⟨hhead, -, hbody, hrest⟩ := hscoped
    have hindex := hhead.index
    rw [size]
    rcases h with ⟨hi, -⟩ | h | h
    · omega
    · have := ihbody h hbody
      omega
    · have := ihrest h hrest
      omega

/-- No declaration takes both values and numbers of elements. -/
theorem Wants.not_elements {v : Value} {count : Nat} (h : l.Wants i (.value v))
    (hscoped : l.Scoped customs n seen) : ¬ l.Wants i (.elements count) := by
  induction l generalizing n seen with
  | done => exact h.elim
  | item head decl rest ih =>
    obtain ⟨hhead, -, -, hrest⟩ := hscoped
    have hindex := hhead.index
    rintro (⟨-, -, v, hv⟩ | h')
    · cases hv
    · rcases h with ⟨hi, -⟩ | h
      · have := h'.bounds hrest
        omega
      · exact ih h hrest h'
  | group head length body closing rest ihbody ihrest =>
    obtain ⟨hhead, -, hbody, hrest⟩ := hscoped
    have hindex := hhead.index
    rcases h with ⟨-, -, n, hn⟩ | h | h
    · cases hn
    · have hi := h.bounds hbody
      rintro (⟨hi', -⟩ | h' | h')
      · omega
      · exact ihbody h hbody h'
      · have := h'.bounds hrest
        omega
    · have hi := h.bounds hrest
      rintro (⟨hi', -⟩ | h' | h')
      · omega
      · have := h'.bounds hbody
        omega
      · exact ihrest h hrest h'

end Layout

end RecordLayout
