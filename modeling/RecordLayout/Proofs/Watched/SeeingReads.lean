import RecordLayout.Proofs.Watched.Decode
import RecordLayout.Proofs.Watched.Seeing

/-!
# Read passes see the latest nodes
-/

namespace RecordLayout

open Layout

namespace Decode.Watched

open PassM.Watched

variable {α : Type} {l : Layout} {ctx : PassContext} {before : List Site} {head : Header}
  {p : Site} {arrays : List Nat}

/-- Whether the pass goes on behind an element. -/
def flowOf : Step α → Flow
  | .next _ => .goOn
  | .last _ => .stop

/-- Elements that are counted keep what each of them keeps. -/
theorem runs_times {A B : Condition} {element : WatchedM Reader (Step α)}
    (h : l.Runs A element fun step => onFlow A B (flowOf step)) (count : Nat) :
    l.Runs A (times element count) fun found => onFlow A B found.2 := by
  induction count with
  | zero => exact Runs.pure fun _ _ h => h
  | succ count ih =>
    refine h.bind fun step => ?_
    cases step with
    | last x => exact Runs.pure fun _ _ h => h
    | next x => exact ih.bind fun found => Runs.pure fun _ _ h => h

/-- The induction is on the bits that remain. -/
theorem runs_toEnd {A B : Condition} (hA : ∀ n past, A n past → l.Faithful past)
    {element : WatchedM Reader (Step α)}
    (h : l.Runs A element fun step => onFlow A B (flowOf step)) (least : Nat) (order : BitOrder)
    (idle : Error) :
    l.Runs A (toEnd least order idle element) fun found => onFlow A B found.2 := by
  intro s hs
  induction hremaining : s.pass.stream.remaining using Nat.strongRecOn generalizing s with
  | ind n ih =>
  have hat := runs_onStream hA (Reader.Checked.atEndFor least order) s hs
  rw [toEnd]
  cases hend : onStream (Reader.Checked.atEndFor least order) s with
  | error e s₁ =>
    rw [hend] at hat
    exact hat
  | ok atEnd s₁ =>
    rw [hend] at hat
    cases atEnd with
    | true => exact hat
    | false =>
      have hstep := h s₁ hat
      dsimp only
      cases helement : element s₁ with
      | error e s₂ =>
        rw [helement] at hstep
        exact hstep
      | ok step s₂ =>
        rw [helement] at hstep
        cases step with
        | last x => exact hstep
        | next x =>
          dsimp only
          by_cases hless : s₂.pass.stream.remaining < s.pass.stream.remaining
          · rw [if_pos hless]
            have hrest := ih _ (hremaining ▸ hless) s₂ hstep rfl
            cases htoEnd : toEnd least order idle element s₂ with
            | error e s₃ =>
              rw [htoEnd] at hrest
              exact hrest
            | ok found s₃ =>
              rw [htoEnd] at hrest
              exact hrest
          · rw [if_neg hless]
            -- The element took nothing, which is an error, but what it evaluated is in the past.
            exact hA _ _ hstep

theorem runs_elements {A B : Condition} (hA : ∀ n past, A n past → l.Faithful past)
    {element : WatchedM Reader (Step α)}
    (h : l.Runs A element fun step => onFlow A B (flowOf step)) (least : Nat) (idle : Error)
    (count : Option Nat) :
    l.Runs A (elements ctx least idle element count) fun found => onFlow A B found.2 := by
  cases count with
  | some n => exact runs_times h n
  | none => exact runs_toEnd hA h least _ idle

/-- Elements that are values: the pass goes on behind them. -/
theorem runs_values {A : Condition} (hA : ∀ n past, A n past → l.Faithful past)
    {element : WatchedM Reader α} (h : l.Runs A element fun _ => A) (least : Nat)
    (idle : Error) (count : Option Nat) :
    l.Runs A (elements ctx least idle (.next <$> element) count) fun _ => A := by
  have hstep : l.Runs A (Step.next <$> element) fun step => onFlow A A (flowOf step) :=
    h.map (C := fun step => onFlow A A (flowOf step))
  refine (runs_elements hA hstep least idle count).imp fun found n past hfound => ?_
  obtain ⟨xs, flow⟩ := found
  cases flow with
  | goOn => exact hfound
  | stop => exact hfound

theorem runs_byteArray (type : ElementType) (count : Option Nat) :
    l.Runs (l.Ready before arrays) (byteArray ctx type count) fun _ => l.Ready before arrays := by
  cases count with
  | some n => exact runs_onStream (fun _ _ h => h.faithful) _
  | none =>
    have hread := runs_onStream (l := l) (A := l.Ready before arrays) (fun _ _ h => h.faithful)
      (Reader.Checked.readByte ctx.options.bitOrder)
    have hvalues : l.Runs (l.Ready before arrays) (elements ctx 8 (.idleElement type.name)
        (.next <$> onStream (Reader.Checked.readByte ctx.options.bitOrder)) none)
        fun _ => l.Ready before arrays := runs_values (fun _ _ h => h.faithful) hread _ _ _
    exact hvalues.map_const Prod.fst

theorem asInt_of_ofNumber {type : FixedType} {n : Nat} {v : Value}
    (h : type.ofNumber n = .ok v) (hinteger : type.isInteger) : v.asInt.isSome := by
  cases type with
  | bool =>
    simp only [FixedType.ofNumber] at h
    by_cases hzero : n = 0
    · rw [if_pos hzero] at h
      cases h
      rfl
    · rw [if_neg hzero] at h
      by_cases hone : n = 1
      · rw [if_pos hone] at h
        cases h
        rfl
      · rw [if_neg hone] at h
        cases h
  | float | double => cases hinteger
  | byte | ubyte | short | ushort | int | uint | long =>
    cases h
    rfl

section

variable (hp : Evaluates l before arrays head p)
include hp

/-- An element keeps what holds in front of its declaration. -/
theorem runs_element {type : ElementType} {length : Option Length}
    (hknows : ∀ a ∈ (Decl.value type length).amount, a.Knows (Site.names before)) (width : Nat) :
    l.Runs (l.Ready before arrays) (element ctx head width type) fun v n past =>
      l.Ready before arrays n past ∧ (type.kind.isNumeric → v.asInt.isSome) := by
  cases type with
  | fixed type =>
    refine (runs_onStream (fun _ _ h => h.faithful) _).bind fun n => ?_
    cases hv : type.ofNumber n with
    | ok v => exact Runs.pure fun _ _ h => ⟨h, asInt_of_ofNumber hv⟩
    | error e => exact Runs.raise fun _ _ h => h.faithful
  | bit _ =>
    refine (runs_onStream (fun _ _ h => h.faithful) _).bind fun n => ?_
    exact Runs.pure fun _ _ h => ⟨h, fun _ => rfl⟩
  | text =>
    refine Runs.map (C := fun (v : Value) n past =>
      l.Ready before arrays n past ∧ (ElementType.text.kind.isNumeric → v.asInt.isSome)) ?_
    refine (runs_onStream (fun _ _ h => h.faithful) _).imp fun _ _ _ h => ⟨h, fun h => by cases h⟩
  | custom use extra =>
    refine (runs_customField hp hknows).bind fun field => ?_
    exact (runs_onStream (fun _ _ h => h.faithful) _).imp fun _ _ _ h => ⟨h, fun h => by cases h⟩

/-- A single value of a numeric type is an integer. -/
theorem runs_value {type : ElementType} {length : Option Length}
    (hknows : ∀ e ∈ (Decl.value type length).exprs, e.Knows (Site.names before)) :
    l.Runs (l.Ready before arrays) (value ctx head type length) fun v n past =>
      l.Ready before arrays n past ∧ ((Decl.value type length).isNumeric → v.asInt.isSome) := by
  have hamount : ∀ a ∈ (Decl.value type length).amount, a.Knows (Site.names before) :=
    fun a ha => Decl.amount_knows hknows ha
  refine (runs_bitWidth hp hamount).bind fun width => ?_
  cases length with
  | none =>
    refine (runs_element hp hamount width).imp fun v n past h => ⟨h.1, fun hnumeric => h.2 ?_⟩
    exact (Bool.and_eq_true_iff.mp hnumeric).1
  | some length =>
    have hlength := Decl.length_knows hknows
    have hdull : ¬ (Decl.value type (some length)).isNumeric = true := by
      simp [Decl.isNumeric]
    refine Runs.imp (B := fun _ => l.Ready before arrays) ?_ fun _ _ _ h =>
      ⟨h, fun hnumeric => absurd hnumeric hdull⟩
    refine (runs_arrayCount hp hlength).bind fun count => ?_
    dsimp only
    split
    · exact (runs_byteArray type count).map_const Value.bytes
    · have helement : l.Runs (l.Ready before arrays) (element ctx head width type)
          fun _ => l.Ready before arrays := (runs_element hp hamount width).imp fun _ _ _ h => h.1
      exact (runs_values (fun _ _ h => h.faithful) helement _ _ count).bind fun _ =>
        Runs.pure fun _ _ h => h

/-- A declaration other than a structure adds its site to those in front. -/
theorem runs_item {decl : Decl} (hinfo : p.name = head.info) (hnumeric : p.numeric = decl.isNumeric)
    (hknows : ∀ e ∈ decl.exprs, e.Knows (Site.names before)) :
    l.Runs (l.Ready before arrays) (item ctx head decl)
      fun _ => l.Ready (before ++ [p]) arrays := by
  have hdull (hnot : decl.isNumeric = false) {w : WatchedM Reader Unit}
      (h : l.Runs (l.Ready before arrays) w fun _ => l.Ready before arrays) :
      l.Runs (l.Ready before arrays) (w >>= fun _ => pure (none : Option Field))
        fun _ => l.Ready (before ++ [p]) arrays := by
    exact h.bind fun _ => Runs.pure fun n past hready => hready.concat (hnumeric.trans hnot)
  cases decl with
  | value type length =>
    refine (runs_value hp hknows).bind fun v => Runs.of_and fun hv => ?_
    cases length with
    | none =>
      have hnode := runs_register_node (δ := Reader) (v := v) hp hinfo fun h => hv (hnumeric ▸ h)
      have hall := hnode.then_pure (some (Field.new head.info v))
      rwa [bind_assoc] at hall
    | some length =>
      have hnot : p.numeric = false := hnumeric.trans (Bool.and_false _)
      exact (runs_note_node hp hnot).then_pure _
  | computed a =>
    refine (runs_amount hp (Decl.amount_knows hknows rfl)).bind fun n => ?_
    have hnode := runs_register_node (δ := Reader) (v := .long n) hp hinfo fun _ => rfl
    have hall := hnode.then_pure (some (Field.new head.info (.long n)))
    rwa [bind_assoc] at hall
  | align a =>
    refine (runs_alignment hp (Decl.amount_knows hknows rfl)).bind fun n => ?_
    exact hdull rfl (runs_onStream (fun _ _ h => h.faithful) _)
  | skip a =>
    refine (runs_skipCount hp (Decl.amount_knows hknows rfl)).bind fun n => ?_
    exact hdull rfl (runs_onStream (fun _ _ h => h.faithful) _)
  | reset => exact hdull rfl (runs_onStream (fun _ _ h => h.faithful) _)

/-- A structure adds the sites inside it as well. -/
theorem runs_group {length : Option Length} {body : WatchedM Reader (List Field × Flow)}
    {inner : List Site} (hnumeric : p.numeric = false)
    (hinner : length.isSome → ∀ q ∈ inner, p.index ∈ q.arrays)
    (hknows : ∀ e ∈ length.bind Length.expr?, e.Knows (Site.names before))
    (hbody : l.Runs (l.Ready (before ++ [p]) (within arrays head length)) body fun found =>
      onFlow (l.Ready (before ++ [p] ++ inner) (within arrays head length))
        (fun _ past => l.Faithful past) found.2) (certain : Nat) :
    l.Runs (l.Ready before arrays) (group ctx head length certain body) fun found =>
      onFlow (l.Ready (before ++ [p] ++ inner) arrays) (fun _ past => l.Faithful past) found.2 := by
  cases length with
  | none =>
    have hbody' : l.Runs (l.Ready before arrays) body fun found =>
        onFlow (l.Ready (before ++ [p] ++ inner) arrays) (fun _ past => l.Faithful past) found.2 :=
      fun s hs => hbody s (hs.concat hnumeric)
    exact hbody'.bind fun found => Runs.pure fun _ _ h => h
  | some length =>
    refine (runs_arrayCount hp hknows).bind fun count => ?_
    have hstep : l.Runs (l.Ready (before ++ [p]) (within arrays head (some length)))
        (Step.ofBody <$> body) fun step =>
          onFlow (l.Ready (before ++ [p] ++ inner) (within arrays head (some length)))
            (fun _ past => l.Faithful past) (flowOf step) := by
      refine Runs.map (C := fun step => onFlow _ _ (flowOf step)) (hbody.imp fun found n past h => ?_)
      obtain ⟨found, flow⟩ := found
      cases flow with
      | goOn => exact h
      | stop => exact h
    have hall : l.Runs _ (elements ctx (leastBits certain) _ _ count) _ :=
      runs_elements (fun _ _ h => h.faithful) (runs_structure hp hstep) _
        (.idleStructure (head.describe Kind.opening.name)) count
    have hstart : l.Runs (l.Ready before arrays) _ _ := fun s hs => hall s (hs.concat hnumeric)
    refine hstart.bind fun found => Runs.pure fun n past h => ?_
    obtain ⟨found, flow⟩ := found
    cases flow with
    | goOn => exact h.behind hp.placed hp.stands hp.arrays (hinner rfl)
    | stop => exact h

end

theorem runs_endsBefore (holdsValue : Bool) :
    l.Runs (l.Ready before arrays) (endsBefore ctx holdsValue) fun _ => l.Ready before arrays := by
  unfold endsBefore
  split
  · exact runs_onStream (fun _ _ h => h.faithful) _
  · exact Runs.pure fun _ _ h => h

/-- The induction is on the layout; `after` are the sites behind it. -/
theorem runs_fields {k : Layout} {n : Nat} {customs : List CustomType} {after : List Site}
    (hplaced : Placed 0 l.size (l.sites [])) (hl : l.sites [] = before ++ k.sites arrays ++ after)
    (hk : k.Scoped customs n (Site.names before)) :
    l.Runs (l.Ready before arrays) (fields ctx k) fun found =>
      onFlow (l.Ready (before ++ k.sites arrays) arrays) (fun _ past => l.Faithful past) found.2 := by
  induction k generalizing n before arrays after with
  | done =>
    refine Runs.pure fun _ _ h => ?_
    rw [sites, List.append_nil]
    exact h
  | item head decl rest ih =>
    have hrest := scoped_rest_item arrays hk
    have hp := evaluates_item hplaced hl
    obtain ⟨-, hexprs, -, -⟩ := hk
    rw [sites, List.append_cons before] at hl
    rw [sites, List.append_cons before]
    refine (runs_endsBefore _).bind fun ends => ?_
    split
    · exact Runs.pure fun _ _ h => h.faithful
    · refine (runs_item hp rfl rfl hexprs).bind fun node => ?_
      exact (ih hl hrest).bind fun found => Runs.pure fun _ _ h => h
  | group head length body closing rest ihbody ihrest =>
    have hbody := scoped_body_group hk arrays
    have hrest := scoped_rest_group hk arrays (within arrays head length)
    have hp := evaluates_group hplaced hl
    obtain ⟨-, hexprs, -, -⟩ := hk
    rw [sites, List.cons_append, List.append_cons before, ← List.append_assoc] at hl
    rw [sites, List.cons_append, List.append_cons before, ← List.append_assoc]
    refine (runs_endsBefore _).bind fun ends => ?_
    split
    · exact Runs.pure fun _ _ h => h.faithful
    · have hfields := ihbody (hl.trans (List.append_assoc _ _ _)) hbody
      refine (runs_group hp rfl mem_arrays_of_mem_body hexprs hfields _).bind fun found => ?_
      obtain ⟨v, flow⟩ := found
      cases flow with
      | stop => exact Runs.pure fun _ _ h => h
      | goOn => exact (ihrest hl hrest).bind fun found => Runs.pure fun _ _ h => h

/-- Every expression of a read pass sees the latest nodes. -/
theorem faithful_record {customs : List CustomType} (hl : l.Scoped customs 0 []) (reader : Reader) :
    l.Faithful (stateOf (record ctx l ⟨⟨reader, .empty, []⟩, []⟩)).past := by
  have hplaced : Placed 0 l.size (l.sites []) := sites_placed hl (by simp)
  have hsplit : l.sites [] = [] ++ l.sites [] ++ [] := (List.append_nil _).symm
  have hrun : l.Runs (l.Ready [] []) (record ctx l) fun _ _ past => l.Faithful past := by
    refine (runs_fields hplaced hsplit hl).bind fun found => Runs.pure fun n past h => ?_
    obtain ⟨found, flow⟩ := found
    cases flow with
    | goOn => exact h.faithful
    | stop => exact h
  exact hrun.faithful (fun _ _ _ h => h) (ready_empty l)

end Decode.Watched

end RecordLayout
