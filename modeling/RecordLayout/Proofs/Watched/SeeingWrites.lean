import RecordLayout.Proofs.Watched.Encode
import RecordLayout.Proofs.Watched.Seeing

/-!
# Write passes see the latest nodes

What a write pass remembers of a numeric declaration is the value in the form of its type, as it is
written, and not as it was supplied.
-/

namespace RecordLayout

open Layout

/-- A value in the form of a numeric type is an integer. -/
theorem asInt_of_normalize {type : ElementType} {width : Nat} {v v' : Value}
    (h : type.normalize width v = some v') (hnumeric : type.kind.isNumeric) : v'.asInt.isSome := by
  cases type with
  | fixed type =>
    cases type with
    | float | double => cases hnumeric
    | bool | byte | ubyte | short | ushort | int | uint | long =>
      obtain ⟨n, -, rfl⟩ := Option.map_eq_some_iff.mp h
      rfl
  | bit w =>
    obtain ⟨n, -, rfl⟩ := Option.map_eq_some_iff.mp h
    rfl
  | text | custom _ _ => cases hnumeric

namespace Encode.Watched

open PassM.Watched

variable {α : Type} {l : Layout} {ctx : PassContext} {before : List Site} {head : Header}
  {p : Site} {arrays : List Nat} {A B : Condition}

theorem runs_onWriter (hA : ∀ n past, A n past → l.Faithful past) (w : CheckedM Writer α) :
    l.Runs A (onWriter w) fun _ => A := runs_onStream hA _

theorem runs_remaining : l.Runs A remaining fun _ => A := fun _ hs => hs

theorem runs_leave (items : List Item) : l.Runs A (leave items) fun _ => A := fun _ hs => hs

theorem runs_checkedNormalize {δ : Type} (hA : ∀ n past, A n past → l.Faithful past)
    {type : ElementType} (width : Nat) (v : Value) :
    l.Runs (δ := δ) A (type.checkedNormalize width v) fun normal n past =>
      A n past ∧ (type.kind.isNumeric → ∀ v' ∈ normal, v'.asInt.isSome) := by
  have hnormal : l.Runs (δ := δ) A (pure (type.normalize width v)) fun normal n past =>
      A n past ∧ (type.kind.isNumeric → ∀ v' ∈ normal, v'.asInt.isSome) :=
    Runs.pure fun _ _ h => ⟨h, fun hnumeric _ hv => asInt_of_normalize hv hnumeric⟩
  cases type with
  | bit w =>
    unfold ElementType.checkedNormalize
    cases v.asInt with
    | none => exact Runs.pure fun _ _ h => ⟨h, fun _ _ hv => by cases hv⟩
    | some n =>
      have hshift : l.Runs (δ := δ) A (checkShift width 64) fun _ => A := by
        unfold checkShift
        split
        · exact Runs.pure fun _ _ h => h
        · exact Runs.fault hA
      refine hshift.bind fun _ => Runs.pure fun _ _ h => ⟨h, fun _ v' hv => ?_⟩
      cases hv
      rfl
  | fixed _ | text | custom _ _ => exact hnormal

/-- To take an item changes neither the past nor the numbers. -/
theorem runs_nextValue (hA : ∀ n past, A n past → l.Faithful past) (declaration : String) :
    l.Runs A (nextValue declaration) fun _ => A := by
  refine runs_remaining.bind fun items => ?_
  rcases items with _ | ⟨_ | _, rest⟩
  · exact Runs.raise hA
  · exact (runs_leave rest).bind fun _ => Runs.pure fun _ _ h => h
  · exact (runs_leave rest).bind fun _ => Runs.raise hA

theorem runs_toldCount : l.Runs A toldCount fun _ => A := by
  refine runs_remaining.bind fun items => ?_
  rcases items with _ | ⟨_ | n, rest⟩
  · exact Runs.pure fun _ _ h => h
  · exact Runs.pure fun _ _ h => h
  · exact (runs_leave rest).bind fun _ => Runs.pure fun _ _ h => h

theorem runs_checkCount (hA : ∀ n past, A n past → l.Faithful past) (declaration : String)
    (count : Option Nat) (supplied : Nat) :
    l.Runs A (checkCount declaration count supplied) fun _ => A := by
  cases count with
  | none => exact Runs.pure fun _ _ h => h
  | some n =>
    unfold checkCount
    dsimp only
    split
    · exact Runs.pure fun _ _ h => h
    · exact Runs.raise hA

theorem runs_endsBefore (holdsValue : Bool) :
    l.Runs A (endsBefore ctx holdsValue) fun _ => A :=
  runs_remaining.bind fun _ => Runs.pure fun _ _ h => h

/-- Structures that are told keep what each of them keeps. -/
theorem runs_times {body : WatchedM Feed Flow} (h : l.Runs A body (onFlow A B)) (count : Nat) :
    l.Runs A (times body count) (onFlow A B) := by
  induction count with
  | zero => exact Runs.pure fun _ _ h => h
  | succ count ih =>
    refine h.bind fun flow => ?_
    cases flow with
    | stop => exact Runs.pure fun _ _ h => h
    | goOn => exact ih

/-- The induction is on the items still to write. -/
theorem runs_whileItems (hA : ∀ n past, A n past → l.Faithful past) {body : WatchedM Feed Flow}
    (h : l.Runs A body (onFlow A B)) (idle : Error) :
    l.Runs A (whileItems idle body) (onFlow A B) := by
  intro s hs
  induction hitems : s.pass.stream.items.length using Nat.strongRecOn generalizing s with
  | ind n ih =>
  rw [whileItems]
  by_cases hempty : s.pass.stream.items.isEmpty
  · rw [if_pos hempty]
    exact hs
  · rw [if_neg hempty]
    have hbody := h s hs
    cases hrun : body s with
    | error e s₁ =>
      rw [hrun] at hbody
      exact hbody
    | ok flow s₁ =>
      rw [hrun] at hbody
      cases flow with
      | stop => exact hbody
      | goOn =>
        dsimp only
        by_cases hless : s₁.pass.stream.items.length < s.pass.stream.items.length
        · rw [if_pos hless]
          exact ih _ (hitems ▸ hless) s₁ hbody rfl
        · rw [if_neg hless]
          exact hA _ _ hbody

section

variable (hp : Evaluates l before arrays head p)
include hp

/-- What is written of a numeric type is an integer. -/
theorem runs_element {type : ElementType} {length : Option Length}
    (hknows : ∀ a ∈ (Decl.value type length).amount, a.Knows (Site.names before)) (width : Nat)
    (v : Value) :
    l.Runs (l.Ready before arrays) (element ctx head width type v) fun written n past =>
      l.Ready before arrays n past ∧
        (type.kind.isNumeric → ∃ v', written = some v' ∧ v'.asInt.isSome) := by
  have hscalar : l.Runs (l.Ready before arrays) (scalar ctx head width type v) fun written n past =>
      l.Ready before arrays n past ∧
        (type.kind.isNumeric → ∃ v', written = some v' ∧ v'.asInt.isSome) := by
    refine (runs_checkedNormalize (fun _ _ h => h.faithful) width v).bind fun normal => ?_
    cases normal with
    | none => exact Runs.raise fun _ _ h => h.1.faithful
    | some v' =>
      refine (runs_onWriter (fun _ _ h => h.1.faithful) _).bind fun _ => ?_
      exact Runs.pure fun _ _ h => ⟨h.1, fun hnumeric => ⟨v', rfl, h.2 hnumeric v' rfl⟩⟩
  cases type with
  | custom use extra =>
    refine (runs_customField hp hknows).bind fun field => ?_
    refine (runs_onWriter (fun _ _ h => h.faithful) _).bind fun _ => ?_
    exact Runs.pure fun _ _ h => ⟨h, fun hnumeric => by cases hnumeric⟩
  | fixed _ | bit _ | text => exact hscalar

theorem runs_elements {type : ElementType} {length : Option Length}
    (hknows : ∀ a ∈ (Decl.value type length).amount, a.Knows (Site.names before)) (width : Nat)
    (vs : List Value) :
    l.Runs (l.Ready before arrays) (elements ctx head width type vs)
      fun _ => l.Ready before arrays := by
  induction vs with
  | nil => exact Runs.pure fun _ _ h => h
  | cons v vs ih =>
    have helement : l.Runs (l.Ready before arrays) (element ctx head width type v)
        fun _ => l.Ready before arrays := (runs_element hp hknows width v).imp fun _ _ _ h => h.1
    exact helement.bind fun _ => ih

/-- A value is noted behind what its width and its length have seen. -/
theorem runs_value {type : ElementType} {length : Option Length} (hinfo : p.name = head.info)
    (hnumeric : p.numeric = (Decl.value type length).isNumeric)
    (hknows : ∀ e ∈ (Decl.value type length).exprs, e.Knows (Site.names before)) (v : Value) :
    l.Runs (l.Ready before arrays) (value ctx head type length v)
      fun _ => l.Ready (before ++ [p]) arrays := by
  have hamount : ∀ a ∈ (Decl.value type length).amount, a.Knows (Site.names before) :=
    fun a ha => Decl.amount_knows hknows ha
  refine (runs_bitWidth hp hamount).bind fun width => ?_
  cases length with
  | none =>
    refine (runs_element hp hamount width v).bind fun written => Runs.of_and fun hwritten => ?_
    have htype : p.numeric → type.kind.isNumeric := by
      rw [hnumeric]
      exact fun h => (Bool.and_eq_true_iff.mp h).1
    cases written with
    | some v' =>
      refine runs_register_node hp hinfo fun h => ?_
      obtain ⟨v'', hsome, hinteger⟩ := hwritten (htype h)
      cases hsome
      exact hinteger
    | none =>
      refine runs_note_node hp (Bool.eq_false_iff.mpr fun h => ?_)
      obtain ⟨v'', hsome, -⟩ := hwritten (htype h)
      cases hsome
  | some length =>
    have hdull : p.numeric = false := hnumeric.trans (Bool.and_false _)
    have hnode (v : Value) := runs_note_node (δ := Feed) (l := l) (v := v) hp hdull
    refine (runs_arrayCount hp (Decl.length_knows hknows)).bind fun count => ?_
    dsimp only
    split
    · refine (runs_checkCount (fun _ _ h => h.faithful) _ _ _).bind fun _ => ?_
      exact (runs_onWriter (fun _ _ h => h.faithful) _).bind fun _ => hnode _
    · refine (runs_checkCount (fun _ _ h => h.faithful) _ _ _).bind fun _ => ?_
      exact (runs_elements hp hamount width _).bind fun _ => hnode _
    · exact Runs.raise fun _ _ h => h.faithful

/-- A declaration other than a structure adds its site to those in front. -/
theorem runs_item {decl : Decl} (hinfo : p.name = head.info) (hnumeric : p.numeric = decl.isNumeric)
    (hknows : ∀ e ∈ decl.exprs, e.Knows (Site.names before)) :
    l.Runs (l.Ready before arrays) (item ctx head decl)
      fun _ => l.Ready (before ++ [p]) arrays := by
  have hdull (hnot : decl.isNumeric = false) {w : WatchedM Feed Unit}
      (h : l.Runs (l.Ready before arrays) w fun _ => l.Ready before arrays) :
      l.Runs (l.Ready before arrays) w fun _ => l.Ready (before ++ [p]) arrays :=
    h.imp fun _ _ _ hready => hready.concat (hnumeric.trans hnot)
  cases decl with
  | value type length =>
    refine (runs_nextValue (fun _ _ h => h.faithful) _).bind fun v => ?_
    exact runs_value hp hinfo hnumeric hknows v
  | computed a =>
    refine (runs_amount hp (Decl.amount_knows hknows rfl)).bind fun n => ?_
    exact runs_register_node hp hinfo fun _ => rfl
  | align a =>
    refine (runs_alignment hp (Decl.amount_knows hknows rfl)).bind fun n => ?_
    exact hdull rfl (runs_onWriter (fun _ _ h => h.faithful) _)
  | skip a =>
    refine (runs_skipCount hp (Decl.amount_knows hknows rfl)).bind fun n => ?_
    exact hdull rfl (runs_onWriter (fun _ _ h => h.faithful) _)
  | reset => exact hdull rfl (runs_onWriter (fun _ _ h => h.faithful) _)

/-- A structure adds the sites inside it as well. -/
theorem runs_group {length : Option Length} {body : WatchedM Feed Flow} {inner : List Site}
    (hnumeric : p.numeric = false) (hinner : length.isSome → ∀ q ∈ inner, p.index ∈ q.arrays)
    (hknows : ∀ e ∈ length.bind Length.expr?, e.Knows (Site.names before))
    (hbody : l.Runs (l.Ready (before ++ [p]) (within arrays head length)) body
      (onFlow (l.Ready (before ++ [p] ++ inner) (within arrays head length))
        fun _ past => l.Faithful past)) :
    l.Runs (l.Ready before arrays) (group ctx head length body)
      (onFlow (l.Ready (before ++ [p] ++ inner) arrays) fun _ past => l.Faithful past) := by
  cases length with
  | none => exact fun s hs => hbody s (hs.concat hnumeric)
  | some length =>
    refine (runs_arrayCount hp hknows).bind fun count => runs_toldCount.bind fun told => ?_
    have hstructure := runs_structure (α := Flow) hp hbody
    have hbehind {w : WatchedM Feed Flow} (hw : l.Runs (l.Ready (before ++ [p]) arrays) w
        (onFlow (l.Ready (before ++ [p]) arrays) fun _ past => l.Faithful past)) :
        l.Runs (l.Ready before arrays) w
          (onFlow (l.Ready (before ++ [p] ++ inner) arrays) fun _ past => l.Faithful past) := by
      intro s hs
      refine hw.imp (fun flow n past h => ?_) s (hs.concat hnumeric)
      cases flow with
      | goOn => exact h.behind hp.placed hp.stands hp.arrays (hinner rfl)
      | stop => exact h
    have htimes (count : Nat) := hbehind (runs_times hstructure count)
    cases count with
    | none =>
      cases told with
      | none => exact hbehind (runs_whileItems (fun _ _ h => h.faithful) hstructure _)
      | some n => exact htimes n
    | some expected =>
      cases told with
      | none => exact htimes expected
      | some supplied =>
        dsimp only
        split
        · exact htimes supplied
        · split
          · refine (htimes supplied).bind fun flow => Runs.pure fun n past h => ?_
            cases flow with
            | goOn => exact h.faithful
            | stop => exact h
          · exact Runs.raise fun _ _ h => h.faithful

end

/-- The induction is on the layout; `after` are the sites behind it. -/
theorem runs_fields {k : Layout} {n : Nat} {customs : List CustomType} {after : List Site}
    (hplaced : Placed 0 l.size (l.sites [])) (hl : l.sites [] = before ++ k.sites arrays ++ after)
    (hk : k.Scoped customs n (Site.names before)) :
    l.Runs (l.Ready before arrays) (fields ctx k)
      (onFlow (l.Ready (before ++ k.sites arrays) arrays) fun _ past => l.Faithful past) := by
  induction k generalizing n before arrays after with
  | done =>
    refine Runs.pure fun _ _ h => ?_
    rw [sites, List.append_nil]
    exact h
  | item head decl rest ih =>
    have hrest := scoped_rest_item arrays hk
    have hp := evaluates_item hplaced hl
    obtain ⟨-, hexprs, -, -⟩ := hk
    rw [sites, List.append_cons before] at hl
    rw [sites, List.append_cons before]
    refine (runs_endsBefore _).bind fun ends => ?_
    split
    · exact Runs.pure fun _ _ h => h.faithful
    · exact (runs_item hp rfl rfl hexprs).bind fun _ => ih hl hrest
  | group head length body closing rest ihbody ihrest =>
    have hbody := scoped_body_group hk arrays
    have hrest := scoped_rest_group hk arrays (within arrays head length)
    have hp := evaluates_group hplaced hl
    obtain ⟨-, hexprs, -, -⟩ := hk
    rw [sites, List.cons_append, List.append_cons before, ← List.append_assoc] at hl
    rw [sites, List.cons_append, List.append_cons before, ← List.append_assoc]
    refine (runs_endsBefore _).bind fun ends => ?_
    split
    · exact Runs.pure fun _ _ h => h.faithful
    · have hfields := ihbody (hl.trans (List.append_assoc _ _ _)) hbody
      refine (runs_group hp rfl mem_arrays_of_mem_body hexprs hfields).bind fun flow => ?_
      cases flow with
      | stop => exact Runs.pure fun _ _ h => h
      | goOn => exact ihrest hl hrest

/-- Every expression of a write pass sees the latest nodes. -/
theorem faithful_record {customs : List CustomType} (hl : l.Scoped customs 0 []) (feed : Feed) :
    l.Faithful (stateOf (record ctx l ⟨⟨feed, .empty, []⟩, []⟩)).past := by
  have hplaced : Placed 0 l.size (l.sites []) := sites_placed hl (by simp)
  have hsplit : l.sites [] = [] ++ l.sites [] ++ [] := (List.append_nil _).symm
  have hrun : l.Runs (l.Ready [] []) (record ctx l) fun _ _ past => l.Faithful past := by
    refine (runs_fields hplaced hsplit hl).bind fun flow => runs_remaining.bind fun items => ?_
    have hflow {n : Numbers} {past : List Event} (h : onFlow (l.Ready ([] ++ l.sites []) [])
        (fun _ past => l.Faithful past) flow n past) : l.Faithful past := by
      cases flow with
      | goOn => exact h.faithful
      | stop => exact h
    split
    · exact (runs_onWriter (fun _ _ => hflow) _).imp fun _ _ _ => hflow
    · exact Runs.raise fun _ _ => hflow
  exact hrun.faithful (fun _ _ _ h => h) (ready_empty l)

end Encode.Watched

end RecordLayout
