import RecordLayout.Proofs.Layout.Sites
import RecordLayout.Proofs.Watched.Decode
import RecordLayout.Proofs.Watched.Nodes
import RecordLayout.Value.Tree

/-!
# The nodes of a read

Behind a read that succeeds the nodes hold the named integers of the tree, in the order in which a
walk visits them. A structure has no node of its own; those inside it come one after the other.
-/

namespace RecordLayout

/-- The named integers among fields and below them, as a walk visits them. -/
def integers (fields : List Field) : List (String × Value) :=
  (Value.walkFields fields).filter fun found => found.2.asInt.isSome

/-- The name of the declaration with an index. -/
def Layout.nameAt (l : Layout) (index : Nat) : Option FieldInfo :=
  match (l.sites []).find? (·.index == index) with
  | some p => p.name
  | none => none

/-- The named integers in nodes. -/
def integersIn (names : Nat → Option FieldInfo) (nodes : List (Nat × Value)) :
    List (String × Value) :=
  integers (nodes.map fun node => .new (names node.1) node.2)

theorem walkFields_append (first later : List Field) :
    Value.walkFields (first ++ later) = Value.walkFields first ++ Value.walkFields later := by
  induction first with
  | nil => rfl
  | cons node first ih =>
    obtain ⟨info, v, payload⟩ := node
    simp only [List.cons_append, Value.walkFields, ih, List.append_assoc]

theorem integers_append (first later : List Field) :
    integers (first ++ later) = integers first ++ integers later := by
  rw [integers, walkFields_append, List.filter_append]
  rfl

/-- One node more tells its own integers, behind those that were told. -/
theorem integersIn_concat (names : Nat → Option FieldInfo) (nodes : List (Nat × Value)) (i : Nat)
    (v : Value) :
    integersIn names (nodes ++ [(i, v)]) =
      integersIn names nodes ++ integers [.new (names i) v] := by
  rw [integersIn, List.map_append, integers_append]
  rfl

/-- The named integers below a value that stands in a list. -/
def integersBelow (item : Value) : List (String × Value) :=
  (Value.walkItems [item]).filter fun found => found.2.asInt.isSome

theorem integers_struct (info : Option FieldInfo) (fields : List Field) :
    integers [.new info (.struct fields)] = integers fields := by
  cases info <;> simp [integers, Field.new, Value.walkFields, Value.walk, Value.asInt]

theorem walkItems_cons (item : Value) (items : List Value) :
    Value.walkItems (item :: items) = Value.walkItems [item] ++ Value.walkItems items := by
  cases item <;> simp [Value.walkItems]

theorem integersBelow_struct (fields : List Field) :
    integersBelow (.struct fields) = integers fields := by
  simp [integersBelow, integers, Value.walkItems]

/-- An array of structures tells what its elements tell, one behind the other. -/
theorem integers_list (info : Option FieldInfo) (items : List Value) :
    integers [.new info (.list items)] = items.flatMap integersBelow := by
  have hitems : (Value.walkItems items).filter (fun found => found.2.asInt.isSome) =
      items.flatMap integersBelow := by
    induction items with
    | nil => rfl
    | cons item items ih =>
      rw [walkItems_cons, List.filter_append, ih, List.flatMap_cons]
      rfl
  rw [← hitems]
  cases info <;> simp [integers, Field.new, Value.walkFields, Value.walk, Value.asInt]

namespace Decode.Watched

open PassM.Watched

/-- The named integers so far. -/
def Told (names : Nat → Option FieldInfo) (found : List (String × Value)) : Ledger Reader :=
  fun nodes _ => integersIn names nodes = found

variable {α : Type} {ctx : PassContext} {head : Header} {names : Nat → Option FieldInfo}
  {front : List (String × Value)}

theorem brings_onReader (w : CheckedM Reader α) :
    Brings (Told names front) (onStream w) fun _ => Told names front :=
  brings_onStream (fun _ _ _ h => h) w

/-- The elements of a step. -/
def elementsOf : Step α → List α
  | .next x => [x]
  | .last x => x.toList

section

variable {element : WatchedM Reader (Step α)} {told : α → List (String × Value)}
  (h : ∀ front, Brings (Told names front) element fun step =>
    Told names (front ++ (elementsOf step).flatMap told))
include h

/-- Elements that are counted tell what they hold, by induction over their number. -/
theorem brings_times (count : Nat) (front : List (String × Value)) :
    Brings (Told names front) (times element count) fun found =>
      Told names (front ++ found.1.flatMap told) := by
  induction count generalizing front with
  | zero =>
    refine Brings.pure fun nodes stream hnodes => ?_
    rwa [List.flatMap_nil, List.append_nil]
  | succ count ih =>
    refine (h front).bind fun step => ?_
    cases step with
    | last x => exact Brings.pure fun _ _ h => h
    | next x =>
      refine (ih _).bind fun found => Brings.pure fun nodes stream hnodes => ?_
      rwa [List.append_assoc, ← List.flatMap_append] at hnodes

/-- The induction is on the bits that remain. -/
theorem brings_toEnd (least : Nat) (order : BitOrder) (idle : Error) (front : List (String × Value)) :
    Brings (Told names front) (toEnd least order idle element) fun found =>
      Told names (front ++ found.1.flatMap told) := by
  intro s hs
  induction hremaining : s.pass.stream.remaining using Nat.strongRecOn generalizing s front with
  | ind n ih =>
  intro found s' hrun
  rw [toEnd] at hrun
  cases hend : onStream (Reader.Checked.atEndFor least order) s with
  | error e s₁ =>
    rw [hend] at hrun
    cases hrun
  | ok atEnd s₁ =>
    have hs₁ := brings_onReader _ s hs atEnd s₁ hend
    rw [hend] at hrun
    cases atEnd with
    | true =>
      cases hrun
      rwa [List.flatMap_nil, List.append_nil]
    | false =>
      dsimp only at hrun
      cases helement : element s₁ with
      | error e s₂ =>
        rw [helement] at hrun
        cases hrun
      | ok step s₂ =>
        have hs₂ := h front s₁ hs₁ step s₂ helement
        rw [helement] at hrun
        cases step with
        | last x =>
          cases hrun
          exact hs₂
        | next x =>
          dsimp only at hrun
          by_cases hless : s₂.pass.stream.remaining < s.pass.stream.remaining
          · rw [if_pos hless] at hrun
            cases hrest : toEnd least order idle element s₂ with
            | error e s₃ =>
              rw [hrest] at hrun
              cases hrun
            | ok more s₃ =>
              have hs₃ := ih _ (hremaining ▸ hless) _ s₂ hs₂ rfl more s₃ hrest
              rw [hrest] at hrun
              cases hrun
              rwa [List.append_assoc, ← List.flatMap_append] at hs₃
          · rw [if_neg hless] at hrun
            cases hrun

theorem brings_elements (least : Nat) (idle : Error) (count : Option Nat)
    (front : List (String × Value)) :
    Brings (Told names front) (elements ctx least idle element count) fun found =>
      Told names (front ++ found.1.flatMap told) := by
  cases count with
  | some n => exact brings_times h n front
  | none => exact brings_toEnd h least _ idle front

end

/-- Elements that are values add no node. -/
theorem brings_values {element : WatchedM Reader α}
    (h : ∀ front, Brings (Told names front) element fun _ => Told names front) (least : Nat)
    (idle : Error) (count : Option Nat) :
    Brings (Told names front) (elements ctx least idle (.next <$> element) count)
      fun _ => Told names front := by
  have hnone (xs : List α) (front : List (String × Value)) :
      front ++ xs.flatMap (fun _ => ([] : List (String × Value))) = front := by
    rw [List.flatMap_eq_nil_iff.mpr fun _ _ => rfl, List.append_nil]
  have hstep (front : List (String × Value)) : Brings (Told names front) (Step.next <$> element)
      fun step => Told names (front ++ (elementsOf step).flatMap fun _ => []) := by
    simp only [hnone]
    exact (h front).map_const Step.next
  refine (brings_elements hstep least idle count front).imp fun found nodes stream hnodes => ?_
  rwa [hnone] at hnodes

theorem brings_element (width : Nat) (type : ElementType) (front : List (String × Value)) :
    Brings (Told names front) (element ctx head width type) fun _ => Told names front := by
  cases type with
  | fixed type =>
    refine (brings_onReader _).bind fun n => ?_
    cases type.ofNumber n with
    | ok v => exact Brings.pure fun _ _ h => h
    | error e => exact Brings.raise
  | bit _ => exact (brings_onReader _).bind fun n => Brings.pure fun _ _ h => h
  | text => exact (brings_onReader _).map_const Value.text
  | custom use extra => exact (quiet_customField use extra _).bind fun field => brings_onReader _

theorem brings_byteArray (type : ElementType) (count : Option Nat) :
    Brings (Told names front) (byteArray ctx type count) fun _ => Told names front := by
  cases count with
  | some n => exact brings_onReader _
  | none =>
    have hvalues : Brings (Told names front) (elements ctx 8 (.idleElement type.name)
        (.next <$> onStream (Reader.Checked.readByte ctx.options.bitOrder)) none)
        fun _ => Told names front := brings_values (fun _ => brings_onReader _) _ _ _
    exact hvalues.map_const Prod.fst

/-- Reading a value adds no node; the declaration does. -/
theorem brings_value (type : ElementType) (length : Option Length) :
    Brings (Told names front) (value ctx head type length) fun _ => Told names front := by
  refine (quiet_bitWidth type _).bind fun width => ?_
  cases length with
  | none => exact brings_element width type front
  | some length =>
    refine (quiet_arrayCount length _).bind fun count => ?_
    dsimp only
    split
    · exact (brings_byteArray type count).map_const Value.bytes
    · exact (brings_values (brings_element width type) _ _ count).bind fun _ =>
        Brings.pure fun _ _ h => h

theorem brings_node (hname : names head.index = head.info) (v : Value) :
    Brings (Told names front) (note (.node head.index v)) fun _ =>
      Told names (front ++ integers [.new head.info v]) := by
  refine brings_note_node fun nodes stream hnodes => ?_
  rw [Told, integersIn_concat, hname, hnodes]

/-- A declaration tells the integers of its node. -/
theorem brings_item (hname : names head.index = head.info) (decl : Decl) :
    Brings (Told names front) (item ctx head decl) fun node =>
      Told names (front ++ integers node.toList) := by
  have hnone {w : WatchedM Reader Unit}
      (h : Brings (Told names front) w fun _ => Told names front) :
      Brings (Told names front) (w >>= fun _ => pure none) fun node =>
        Told names (front ++ integers node.toList) := by
    refine h.bind fun _ => Brings.pure fun nodes stream hnodes => ?_
    rw [Option.toList_none]
    exact hnodes.trans (List.append_nil front).symm
  cases decl with
  | value type length =>
    have hnode (v : Value) : Brings (Told names front)
        (note (.node head.index v) >>= fun _ => pure (some (.new head.info v))) fun node =>
          Told names (front ++ integers node.toList) :=
      (brings_node hname v).bind fun _ => Brings.pure fun _ _ h => h
    refine (brings_value type length).bind fun v => ?_
    dsimp only
    split
    · exact (quiet_register _ _ _).bind fun _ => hnode v
    · exact hnode v
  | computed a =>
    refine (quiet_amount a _).bind fun n => (quiet_register _ _ _).bind fun _ => ?_
    exact (brings_node hname _).bind fun _ => Brings.pure fun _ _ h => h
  | align a => exact (quiet_alignment a _).bind fun n => hnone (brings_onReader _)
  | skip a => exact (quiet_skipCount a _).bind fun n => hnone (brings_onReader _)
  | reset => exact hnone (brings_onReader _)

theorem brings_endsBefore (holdsValue : Bool) :
    Brings (Told names front) (endsBefore ctx holdsValue) fun _ => Told names front := by
  unfold endsBefore
  split
  · exact brings_onReader _
  · exact Brings.pure fun _ _ h => h

/-- A structure adds no node of its own to those inside it. -/
theorem brings_group {body : WatchedM Reader (List Field × Flow)}
    (h : ∀ front, Brings (Told names front) body fun found =>
      Told names (front ++ integers found.1)) (length : Option Length) (certain : Nat)
    (info : Option FieldInfo) :
    Brings (Told names front) (group ctx head length certain body) fun found =>
      Told names (front ++ integers [.new info found.1]) := by
  cases length with
  | none =>
    refine (h front).bind fun found => Brings.pure fun nodes stream hnodes => ?_
    rwa [integers_struct]
  | some length =>
    refine (quiet_arrayCount length _).bind fun count => ?_
    have hstep (front : List (String × Value)) : Brings (Told names front)
        (note (.element head.index) >>= fun _ => Step.ofBody <$> body) fun step =>
          Told names (front ++ (elementsOf step).flatMap integersBelow) := by
      refine (quiet_note_element _ _).bind fun _ => Brings.map ?_
      refine (h front).imp fun found nodes _ hnodes => ?_
      obtain ⟨fields, flow⟩ := found
      have hstruct : ([.struct fields] : List Value).flatMap integersBelow = integers fields := by
        rw [List.flatMap_singleton, integersBelow_struct]
      cases flow with
      | goOn =>
        exact hnodes.trans (congrArg (front ++ ·) hstruct.symm)
      | stop =>
        cases fields with
        | nil => exact hnodes
        | cons node fields => exact hnodes.trans (congrArg (front ++ ·) hstruct.symm)
    refine (brings_elements hstep _ _ count front).bind fun found => ?_
    refine Brings.pure fun nodes _ hnodes => ?_
    rwa [integers_list]

theorem brings_nothing (flow : Flow) :
    Brings (Told names front) (pure ([], flow)) fun found : List Field × Flow =>
      Told names (front ++ integers found.1) :=
  Brings.pure fun _ _ h => h.trans (List.append_nil front).symm

/-- The induction is on the layout. -/
theorem brings_fields {k : Layout} {arrays : List Nat}
    (hnames : ∀ p ∈ k.sites arrays, names p.index = p.name) (front : List (String × Value)) :
    Brings (Told names front) (fields ctx k) fun found =>
      Told names (front ++ integers found.1) := by
  induction k generalizing arrays front with
  | done => exact brings_nothing .goOn
  | item head decl rest ih =>
    obtain ⟨hname, hrest⟩ := List.forall_mem_cons.mp hnames
    refine (brings_endsBefore _).bind fun ends => ?_
    split
    · exact brings_nothing .stop
    · refine (brings_item hname decl).bind fun node => ?_
      refine (ih hrest _).bind fun found => Brings.pure fun nodes _ hnodes => ?_
      rwa [integers_append, ← List.append_assoc]
  | group head length body closing rest ihbody ihrest =>
    obtain ⟨hbody, hrest⟩ := List.forall_mem_append.mp hnames
    have hinside := (List.forall_mem_cons.mp hbody).2
    refine (brings_endsBefore _).bind fun ends => ?_
    split
    · exact brings_nothing .stop
    · refine (brings_group (ihbody hinside) length _ head.info).bind fun found => ?_
      obtain ⟨v, flow⟩ := found
      cases flow with
      | stop => exact Brings.pure fun _ _ h => h
      | goOn =>
        refine (ihrest hrest _).bind fun found => Brings.pure fun nodes _ hnodes => ?_
        rw [List.append_assoc, ← integers_append] at hnodes
        exact hnodes

theorem brings_record {customs : List CustomType} {l : Layout} (hl : l.Scoped customs 0 []) :
    Brings (Told l.nameAt []) (record ctx l) fun tree => Told l.nameAt (integers [tree]) := by
  have hplaced : Layout.Placed 0 l.size (l.sites []) := Layout.sites_placed hl (by simp)
  have hnames : ∀ p ∈ l.sites [], l.nameAt p.index = p.name := by
    intro p hp
    rw [Layout.nameAt, Layout.find_of_sorted hplaced.sorted hp]
  refine (brings_fields hnames []).bind fun found => Brings.pure fun nodes _ hnodes => ?_
  rw [Field.unnamed, integers_struct]
  exact hnodes

/-- The named integers in the nodes of a read are those of its tree. -/
theorem integersIn_record {customs : List CustomType} {l : Layout} (hl : l.Scoped customs 0 [])
    {reader : Reader} {tree : Field}
    (h : resultOf (record ctx l ⟨⟨reader, .empty, []⟩, []⟩) = .ok tree) :
    integersIn l.nameAt (nodesOf (stateOf (record ctx l ⟨⟨reader, .empty, []⟩, []⟩)).past) =
      integers [tree] := by
  have hbrings : Brings _ (record ctx l) _ := brings_record hl
  cases hrun : record ctx l ⟨⟨reader, .empty, []⟩, []⟩ with
  | ok found s =>
    rw [hrun] at h
    cases h
    exact hbrings ⟨⟨reader, .empty, []⟩, []⟩ rfl _ _ hrun
  | error e s =>
    rw [hrun] at h
    cases h

end Decode.Watched

end RecordLayout
