import RecordLayout.Proofs.Pass.Parts
import RecordLayout.Proofs.Pass.WriteComplete
import RecordLayout.Proofs.Steps.FoundArray
import RecordLayout.Proofs.Steps.Taking

/-!
# A pass in step with its items

The items of a tree and the pass that writes them are made from the layout separately: the one walks
through the tree, the other through the declarations, with counts that expressions tell. They stay in
step. Where a part of the pass begins at the items of the part of the tree that belongs to it, it
takes these items at the spots for which they were laid out. If it goes on, it stands at the items of
the next part; if it stops or fails, it has taken a part of them.

A tree that ends early leaves nothing behind its end. So behind the end of a part that is cut off
there are no items at all, and the pass, which goes on with its declarations, finds none.
-/

namespace RecordLayout.Encode.Taking

variable {α β : Type}

/-- The pass went from the first items to the rest of them and took what is in between, each item at
its spot. -/
structure Takes (queue rest : List (Spot × Item)) (s s' : TakingState) : Prop where
  front : ∃ front, queue = front ++ rest ∧ s'.taken = s.taken ++ front
  items : s'.pass.stream.items = rest.map Prod.snd

/-- The pass took some of these items, and all but the last ones if it goes on. Where custom types
mind their own affairs, it found no array in the place of a value. -/
def Comes (own : Prop) (goes : α → Prop) (queue last : List (Spot × Item)) (s : TakingState) :
    EStateM.Result Error TakingState α → Prop
  | .ok x s' => ∃ rest, Takes queue rest s s' ∧ (goes x → rest = last)
  | .error e s' => (∃ rest, Takes queue rest s s') ∧ (own → e.IsOther)

/-- From the items of a part of a tree, and whatever is behind them, the operation takes those items
or some of them at their spots; all of them, if it gives a result with which the pass goes on.
Nothing is behind the items of a part that is cut off. -/
def InStep (own : Prop) (goes : α → Prop) (laid : Spot.Laid) (m : TakingM α) : Prop :=
  ∀ s more, (laid.2 = false → more = []) → s.pass.stream.items = (laid.1 ++ more).map Prod.snd →
    Comes own goes (laid.1 ++ more) more s (m s)

theorem Takes.refl {queue : List (Spot × Item)} {s : TakingState}
    (h : s.pass.stream.items = queue.map Prod.snd) : Takes queue queue s s :=
  ⟨⟨[], rfl, (List.append_nil _).symm⟩, h⟩

/-- What two operations took, one behind the other, they took together. -/
theorem Takes.trans {queue middle rest : List (Spot × Item)} {s s₁ s' : TakingState}
    (h₁ : Takes queue middle s s₁) (h₂ : Takes middle rest s₁ s') : Takes queue rest s s' := by
  obtain ⟨⟨front₁, hqueue₁, htaken₁⟩, -⟩ := h₁
  obtain ⟨⟨front₂, hqueue₂, htaken₂⟩, hitems⟩ := h₂
  refine ⟨⟨front₁ ++ front₂, ?_, ?_⟩, hitems⟩
  · rw [hqueue₁, hqueue₂, List.append_assoc]
  · rw [htaken₂, htaken₁, List.append_assoc]

/-- What an operation comes to counts from where the first items were taken. -/
theorem Comes.behind {own : Prop} {goes : α → Prop} {queue middle last : List (Spot × Item)}
    {s s₁ : TakingState} {r : EStateM.Result Error TakingState α} (h₁ : Takes queue middle s s₁)
    (h : Comes own goes middle last s₁ r) : Comes own goes queue last s r := by
  cases r with
  | ok x s' =>
    obtain ⟨rest, htakes, hgoes⟩ := h
    exact ⟨rest, h₁.trans htakes, hgoes⟩
  | error e s' =>
    obtain ⟨⟨rest, htakes⟩, hother⟩ := h
    exact ⟨⟨rest, h₁.trans htakes⟩, hother⟩

/-- Whether it succeeds or fails, it took some of the items in front. -/
theorem Comes.takes {own : Prop} {goes : α → Prop} {queue last : List (Spot × Item)} {s : TakingState}
    {r : EStateM.Result Error TakingState α} (h : Comes own goes queue last s r) :
    ∃ rest, Takes queue rest s (stateOf r) := by
  cases r with
  | ok x s' =>
    obtain ⟨rest, htakes, -⟩ := h
    exact ⟨rest, htakes⟩
  | error e s' => exact h.1

/-! ## Parts of a tree -/

theorem andThen_nil (laid : Spot.Laid) : Spot.andThen laid ([], true) = laid := by
  obtain ⟨items, whole⟩ := laid
  cases whole
  · rfl
  · simp [Spot.andThen]

theorem nil_andThen (laid : Spot.Laid) : Spot.andThen ([], true) laid = laid := rfl

theorem cut_andThen (laid : Spot.Laid) : Spot.andThen ([], false) laid = ([], false) := rfl

/-- Without nodes there are no items. -/
theorem ofFields_nil (l : Layout) (within : List (Nat × Nat)) :
    (Spot.ofFields l within []).1 = [] := by
  induction l with
  | done => rfl
  | item head decl rest ih =>
    unfold Spot.ofFields
    split
    · exact ih
    · rfl
  | group head length body closing rest _ _ => rfl

/-! ## Operations in step -/

namespace InStep

variable {own : Prop} {goes : α → Prop} {goes' : β → Prop} {laid first second : Spot.Laid}
  {m : TakingM α}

theorem pure (a : α) : InStep own goes ([], true) (Pure.pure a) :=
  fun _ more _ hitems => ⟨more, .refl hitems, fun _ => rfl⟩

theorem throw {e : Error} (h : e.IsOther) (laid : Spot.Laid) :
    InStep own goes laid (MonadExcept.throw e) :=
  fun _ more _ hitems => ⟨⟨laid.1 ++ more, .refl hitems⟩, fun _ => h⟩

/-- What is in step with no items is so where the tree has ended. -/
theorem cut (h : InStep own goes laid m) (hnil : laid.1 = []) : InStep own goes ([], false) m := by
  intro s more hmore hitems
  have hs := h s more (fun _ => hmore rfl)
  rw [hnil] at hs
  exact hs hitems

/-- Two operations in a row. Where the tree ends in the part of the first, the second has to be in
step with no items; and it must do nothing behind a result with which the pass stops. -/
theorem bind {g : α → TakingM β} (hm : InStep own goes first m)
    (hg : ∀ x, goes x → InStep own goes' second (g x))
    (hcut : first.2 = false → ∀ x, goes x → InStep own goes' ([], false) (g x))
    (hstop : ∀ x, ¬ goes x → ∃ y, g x = Pure.pure y ∧ ¬ goes' y) :
    InStep own goes' (Spot.andThen first second) (m >>= g) := by
  intro s more hmore hitems
  -- The items behind those of the first part, and how the second operation goes on with them.
  have key : ∃ behind, (Spot.andThen first second).1 ++ more = first.1 ++ behind ∧
      (first.2 = false → behind = []) ∧ ∀ x, goes x → ∀ s₁ : TakingState,
        s₁.pass.stream.items = behind.map Prod.snd → Comes own goes' behind more s₁ (g x s₁) := by
    unfold Spot.andThen at hmore ⊢
    by_cases hwhole : first.2 = true
    · rw [if_pos hwhole] at hmore ⊢
      refine ⟨second.1 ++ more, List.append_assoc .., fun h => ?_, fun x hx s₁ => ?_⟩
      · rw [hwhole] at h
        cases h
      · exact hg x hx s₁ more hmore
    · rw [if_neg hwhole] at hmore ⊢
      have hended := Bool.eq_false_of_not_eq_true hwhole
      cases hmore hended
      exact ⟨[], rfl, fun _ => rfl, fun x hx s₁ => hcut hended x hx s₁ [] fun _ => rfl⟩
  obtain ⟨behind, hqueue, hbehind, hsecond⟩ := key
  rw [hqueue] at hitems ⊢
  have hfirst := hm s behind hbehind hitems
  cases hrun : m s with
  | error e s₁ =>
    rw [hrun] at hfirst
    rw [bind_of_error hrun]
    exact hfirst
  | ok x s₁ =>
    rw [hrun] at hfirst
    rw [bind_of_ok hrun]
    obtain ⟨rest, htakes, hgoes⟩ := hfirst
    by_cases hx : goes x
    · cases hgoes hx
      exact (hsecond x hx s₁ htakes.items).behind htakes
    · obtain ⟨y, hy, hgoes'⟩ := hstop x hx
      rw [hy]
      exact ⟨rest, htakes, fun h => absurd h hgoes'⟩

/-- An operation of the pass that leaves the items alone. -/
theorem onPass {m : PassM Feed α} (hitems : ∀ s, (stateOf (m s)).stream.items = s.stream.items)
    (hother : own → NeverFinds m) : InStep own goes ([], true) (onPass m) := by
  intro s more _ hqueue
  have hm := hitems s.pass
  unfold Taking.onPass
  cases hrun : m s.pass with
  | ok x pass =>
    rw [hrun] at hm
    exact ⟨more, ⟨⟨[], rfl, (List.append_nil _).symm⟩, hm.trans hqueue⟩, fun _ => rfl⟩
  | error e pass =>
    rw [hrun] at hm
    exact ⟨⟨more, ⟨[], rfl, (List.append_nil _).symm⟩, hm.trans hqueue⟩,
      fun hown => hother hown _ _ _ hrun⟩

/-- An operation of the pass that takes these items at a spot. -/
theorem atSpot {spot : Spot} {taken : List Item} {m : PassM Feed α}
    (hitems : ∀ s more, s.stream.items = taken ++ more → (stateOf (m s)).stream.items = more)
    (hother : own → ∀ s more e s', s.stream.items = taken ++ more →
      m s = .error e s' → e.IsOther) :
    InStep own goes (taken.map (spot, ·), true) (atSpot spot m) := by
  intro s more _ hqueue
  have hfront : s.pass.stream.items = taken ++ more.map Prod.snd := by
    rw [hqueue, List.map_append, List.map_map]
    exact congrArg (· ++ _) (List.map_id _)
  have hm := hitems s.pass _ hfront
  have hmissing : ∀ pass : PassState Feed, pass.stream.items = more.map Prod.snd →
      missing s.pass pass = taken := by
    intro pass hpass
    rw [missing, hfront, hpass, List.length_append, Nat.add_sub_cancel, List.take_left]
  unfold Taking.atSpot
  cases hrun : m s.pass with
  | ok x pass =>
    rw [hrun] at hm
    refine ⟨more, ⟨⟨_, rfl, ?_⟩, hm⟩, fun _ => rfl⟩
    exact congrArg (fun front => s.taken ++ front.map (spot, ·)) (hmissing pass hm)
  | error e pass =>
    rw [hrun] at hm
    refine ⟨⟨more, ⟨_, rfl, ?_⟩, hm⟩, fun hown => hother hown _ _ _ _ hfront hrun⟩
    exact congrArg (fun front => s.taken ++ front.map (spot, ·)) (hmissing pass hm)

/-- Behind the look at the number of elements that the items tell. -/
theorem told {g : Option Nat → TakingM β} {spot : Spot} {n : Nat}
    (hg : InStep own goes' laid (g (some n))) :
    InStep own goes' ((spot, .elements n) :: laid.1, laid.2)
      (Taking.atSpot spot toldCount >>= g) := by
  intro s more hmore hqueue
  have hrun := toldCount_of_cons (s := s.pass) hqueue
  generalize hpass : ({ s.pass with stream := { s.pass.stream with
    items := (laid.1 ++ more).map Prod.snd } } : PassState Feed) = pass at hrun
  have hitems : pass.stream.items = (laid.1 ++ more).map Prod.snd := by rw [← hpass]
  have htold : Taking.atSpot spot toldCount s = .ok (some n) ⟨pass, s.taken ++ [(spot, .elements n)]⟩ := by
    unfold Taking.atSpot
    rw [hrun]
    simp [onState, missing, hqueue, hitems]
  rw [bind_of_ok htold]
  have htakes : Takes ((spot, .elements n) :: laid.1 ++ more) (laid.1 ++ more) s
      ⟨pass, s.taken ++ [(spot, .elements n)]⟩ :=
    ⟨⟨[(spot, .elements n)], rfl, rfl⟩, hitems⟩
  exact (hg _ more hmore hitems).behind htakes

/-- Where the tree has ended, nothing tells the number of elements. -/
theorem untold {g : Option Nat → TakingM β} {spot : Spot}
    (hg : InStep own goes' ([], false) (g none)) :
    InStep own goes' ([], false) (Taking.atSpot spot toldCount >>= g) := by
  intro s more hmore hqueue
  cases hmore rfl
  have hnil : s.pass.stream.items = [] := hqueue
  have hremaining : remaining s.pass = .ok [] s.pass := by rw [← hnil]; rfl
  have hrun : toldCount s.pass = .ok none s.pass := by
    rw [toldCount, bind_of_ok hremaining]
    rfl
  have htold : Taking.atSpot spot toldCount s = .ok none s := by
    unfold Taking.atSpot
    rw [hrun]
    simp [onState, missing]
  rw [bind_of_ok htold]
  exact hg s [] (fun _ => rfl) hqueue

end InStep

/-! ## Declarations -/

section

variable {m : PassM Feed α} {ctx : PassContext} {head : Header}

/-- The operation leaves the items alone, whether it succeeds or fails. -/
def LeavesItems (m : PassM Feed α) : Prop :=
  ∀ items, Retains (fun s : PassState Feed => s.stream.items = items) m

theorem leavesItems_onWriter (m : WriteM α) : LeavesItems (onWriter m) := by
  intro items s hs
  unfold onWriter PassM.onStream
  dsimp only
  cases m s.stream.writer <;> exact hs

/-- No part of a value takes an item. -/
theorem leavesItems_valueParts (ctx : PassContext) : ValueParts ctx fun m => LeavesItems m where
  pure a _ := Retains.pure a
  throw e _ := Retains.throw e
  bind_of_ok {_ _ m g} hm hg items s hs := by
    have hkeep := hm items s hs
    cases hrun : m s with
    | ok a t =>
      rw [hrun] at hkeep
      rw [bind_of_ok hrun]
      exact hg a s t hrun items t hkeep
    | error e t =>
      rw [hrun] at hkeep
      rwa [bind_of_error hrun]
  eval e items s hs := by
    unfold PassM.eval
    dsimp only
    cases e.eval (PassM.env ctx s) <;> exact hs
  register info v items := by
    unfold PassM.register
    split
    · exact Retains.modify fun _ hs => hs
    · exact Retains.pure _
  put _ _ _ _ := leavesItems_onWriter _
  bytes _ := leavesItems_onWriter _

theorem leavesItems_value (type : ElementType) (length : Option Length) (v : Value) :
    LeavesItems (value ctx head type length v) :=
  (leavesItems_valueParts ctx).value (fun _ _ _ _ _ => leavesItems_onWriter _) length v

variable {own : Prop} {decl : Decl}

/-- A declaration takes the item of its node. -/
theorem inStep_item (hown : own → ∀ use, decl.customUse = some use → use.MindsItsOwn ctx)
    (spot : Spot) (node : Field) :
    InStep own (fun _ => True) ((Item.ofNode decl node).map (spot, ·), true)
      (atSpot spot (item ctx head decl)) := by
  have hparts := (leavesItems_valueParts ctx).toParts
  have hnone : ∀ {m : PassM Feed Unit}, LeavesItems m → (own → NeverFinds m) →
      InStep own (fun _ => True) (([] : List Item).map (spot, ·), true) (atSpot spot m) :=
    fun hleaves hother => .atSpot (fun s more hs => hleaves _ s hs)
      fun h s more e s' _ hrun => hother h _ _ _ hrun
  cases decl with
  | value type length =>
    have hrun : ∀ (s : PassState Feed) (more : List Item), s.stream.items = .value node.value :: more →
        item ctx head (.value type length) s = value ctx head type length node.value
          { s with stream := { s.stream with items := more } } := fun s more hs => by
      rw [item, bind_of_ok (nextValue_of_cons hs _)]
    rw [Item.ofNode, if_pos (Decl.holdsValue_value type length)]
    refine .atSpot (fun s more hs => ?_) fun h s more e s' hs hfail => ?_
    · rw [hrun s more hs]
      exact leavesItems_value type length node.value more _ rfl
    · rw [hrun s more hs] at hfail
      have htype : ∀ use extra, type = .custom use extra → use.MindsItsOwn ctx := by
        rintro use extra rfl
        exact hown h use rfl
      exact neverFinds_value htype length node.value _ _ _ hfail
  | computed a =>
    exact hnone (hparts.bind (hparts.amount a) fun n => hparts.register _ _) fun _ =>
      (neverFinds_parameter (PassM.throws_amount ctx a)).bind fun n => PassM.throws_register _ _
  | align a =>
    exact hnone (hparts.bind (hparts.alignment a) fun n => leavesItems_onWriter _) fun _ =>
      (neverFinds_parameter (PassM.throws_alignment ctx a)).bind fun n =>
        neverFinds_onWriter (Writer.neverFinds_align n)
  | skip a =>
    exact hnone (hparts.bind (hparts.skipCount a) fun n => leavesItems_onWriter _) fun _ =>
      (neverFinds_parameter (PassM.throws_skipCount ctx a)).bind fun n =>
        neverFinds_onWriter (Writer.neverFinds_skipBytes n)
  | reset =>
    exact hnone (leavesItems_onWriter _) fun _ =>
      neverFinds_onWriter (Writer.neverFinds_flushBits.bind fun _ => .modify _)

/-- Where the tree has ended, a declaration takes nothing. -/
theorem inStep_item_cut (hown : own → ∀ use, decl.customUse = some use → use.MindsItsOwn ctx)
    (spot : Spot) : InStep own (fun _ => True) ([], false) (atSpot spot (item ctx head decl)) := by
  cases decl with
  | value type length =>
    intro s more hmore hqueue
    cases hmore rfl
    have hnil : s.pass.stream.items = [] := hqueue
    have hremaining : remaining s.pass = .ok [] s.pass := by rw [← hnil]; rfl
    have hnext : nextValue (head.describe type.name) s.pass =
        .error (.noValue (head.describe type.name)) s.pass := by
      rw [nextValue, bind_of_ok hremaining]
      rfl
    have hrun : atSpot spot (item ctx head (.value type length)) s =
        .error (.noValue (head.describe type.name)) s := by
      unfold atSpot
      rw [item, bind_of_error hnext]
      simp [onState, missing]
    rw [hrun]
    exact ⟨⟨[], .refl hqueue⟩, fun _ => trivial⟩
  | computed _ | align _ | skip _ | reset => exact (inStep_item hown spot default).cut rfl

end

/-! ## Structures -/

section

variable {own : Prop} {ctx : PassContext} {head : Header}

/-- The pass goes on. -/
def GoesOn (flow : Flow) : Prop := flow = .goOn

theorem inStep_endsBefore (holdsValue : Bool) :
    InStep own (fun ends => ends = false) ([], true) (onPass (endsBefore ctx holdsValue)) :=
  .onPass (fun _ => rfl) fun _ => .bind (.get_bind fun _ => .pure _) fun _ => .pure _

/-- Behind a structure the pass stops or does something in step with what follows. -/
theorem InStep.andThen {first second : Spot.Laid} {m rest : TakingM Flow}
    (hm : InStep own GoesOn first m) (hrest : InStep own GoesOn second rest)
    (hcut : first.2 = false → InStep own GoesOn ([], false) rest) :
    InStep own GoesOn (Spot.andThen first second) (do
      match ← m with
      | .stop => Pure.pure Flow.stop
      | .goOn => rest) := by
  refine hm.bind (fun flow hflow => ?_) (fun hended flow hflow => ?_) fun flow hflow => ?_
  · cases hflow
    exact hrest
  · cases hflow
    exact hcut hended
  · cases flow with
    | stop => exact ⟨.stop, rfl, fun h => by cases h⟩
    | goOn => exact absurd rfl hflow

section

variable {element : Nat → TakingM Flow} (hcut : ∀ k, InStep own GoesOn ([], false) (element k))
include hcut

/-- Where the tree has ended, no structure takes anything. -/
theorem inStep_times_cut (k count : Nat) :
    InStep own GoesOn ([], false) (times element k count) := by
  induction count generalizing k with
  | zero => exact (InStep.pure _).cut rfl
  | succ count ih => exact (hcut k).andThen (ih (k + 1)) fun _ => ih (k + 1)

/-- Each structure takes the items of its element. -/
theorem inStep_times {laid : Nat → List Field → Spot.Laid}
    (h : ∀ k fields, InStep own GoesOn (laid k fields) (element k)) (k : Nat) (items : List Value) :
    InStep own GoesOn (Spot.ofElements laid k items) (times element k items.length) := by
  induction items generalizing k with
  | nil => exact .pure _
  | cons v items ih =>
    cases v with
    | struct fields =>
      exact (h k fields).andThen (ih (k + 1)) fun _ => inStep_times_cut hcut (k + 1) items.length
    | _ => exact inStep_times_cut hcut k (items.length + 1)

omit hcut in
/-- Where the tree has ended, there are no further structures. -/
theorem inStep_whileItems_cut (idle : Error) (k : Nat) :
    InStep own GoesOn ([], false) (whileItems idle element k) := by
  intro s more hmore hqueue
  cases hmore rfl
  have hnil : s.pass.stream.items = [] := hqueue
  rw [whileItems, hnil, List.isEmpty_nil, if_pos rfl]
  exact ⟨[], .refl hqueue, fun _ => rfl⟩

end

/-- The pass through a structure or an array of them is in step with its items. -/
theorem inStep_group {body : List (Nat × Nat) → List Field → Spot.Laid}
    {element : List (Nat × Nat) → TakingM Flow}
    (h : ∀ within fields, InStep own GoesOn (body within fields) (element within))
    (hcut : ∀ within, InStep own GoesOn ([], false) (element within)) (within : List (Nat × Nat))
    (length : Option Length) (v : Value) :
    InStep own GoesOn (Spot.ofGroup ⟨within, head.index⟩ length body v)
        (group ctx head within length element) ∧
      InStep own GoesOn ([], false) (group ctx head within length element) := by
  cases length with
  | none =>
    refine ⟨?_, hcut within⟩
    cases v with
    | struct fields => exact h within fields
    | _ => exact hcut within
  | some length =>
    have hcount : InStep own (fun _ => True) ([], true)
        (onPass (PassM.arrayCount ctx length : PassM Feed (Option Nat))) :=
      .onPass (fun s => (leavesItems_valueParts ctx).arrayCount length _ s rfl) fun _ =>
        neverFinds_parameter (PassM.throws_arrayCount ctx length)
    -- Nothing is laid out for a value that does not fit, so nothing may be taken either.
    have hnone : InStep own GoesOn ([], false) (group ctx head within (some length) element) := by
      refine hcount.bind (fun count _ => .untold ?_) (fun h => by cases h)
        fun _ h => absurd trivial h
      cases count with
      | none => exact inStep_whileItems_cut _ 0
      | some n => exact inStep_times_cut (fun k => hcut _) 0 n
    refine ⟨?_, hnone⟩
    cases v with
    | list items =>
      refine hcount.bind (fun count _ => .told ?_) (fun h => by cases h)
        fun _ h => absurd trivial h
      have htimes : InStep own GoesOn
          (Spot.ofElements (fun k => body ((head.index, k) :: within)) 0 items)
          (times (fun k => element ((head.index, k) :: within)) 0 items.length) :=
        inStep_times (fun k => hcut _) (fun k => h _) 0 items
      cases count with
      | none => exact htimes
      | some expected =>
        dsimp only
        split
        · exact htimes
        -- Fewer elements than the length says end a lenient pass and are an error of a strict one.
        · split
          · rw [← andThen_nil (Spot.ofElements _ 0 items)]
            exact htimes.bind (fun _ _ => .pure Flow.stop) (fun _ _ _ => (InStep.pure Flow.stop).cut rfl)
              fun _ _ => ⟨.stop, rfl, fun h => by cases h⟩
          · exact .throw (show (Error.elementCount _ _ _).IsOther from trivial) _
    | _ => exact hnone

/-- The pass through a layout is in step with the items of any nodes of it. -/
theorem inStep_fields {l : Layout} (hown : own → ∀ use ∈ l.customUses, use.MindsItsOwn ctx)
    (within : List (Nat × Nat)) (nodes : List Field) :
    InStep own GoesOn (Spot.ofFields l within nodes) (fields ctx l within) := by
  induction l generalizing within nodes with
  | done => exact .pure _
  | item head decl rest ih =>
    simp only [Layout.customUses, List.forall_mem_append] at hown
    have hitem : own → ∀ use, decl.customUse = some use → use.MindsItsOwn ctx :=
      fun h use huse => (hown h).1 use (Option.mem_toList.mpr huse)
    have hrest := ih fun h => (hown h).2
    have hcut := (hrest within []).cut (ofFields_nil rest within)
    rw [← nil_andThen (Spot.ofFields _ within nodes)]
    refine (inStep_endsBefore _).bind (fun ends hends => ?_) (fun h => by cases h)
      fun ends hends => ?_
    · rw [hends, if_neg Bool.false_ne_true]
      unfold Spot.ofFields
      split
      · rename_i hdirective
        have hnone : Item.ofNode decl default = [] := by
          cases decl with
          | value type length => rw [Decl.isDirective_value] at hdirective; cases hdirective
          | _ => rfl
        have hfirst : InStep own (fun _ => True) ((Item.ofNode decl default).map _, true)
            (atSpot ⟨within, head.index⟩ (item ctx head decl)) := inStep_item hitem _ default
        rw [hnone] at hfirst
        exact hfirst.bind (fun _ _ => hrest within nodes) (fun h => by cases h)
          fun _ h => absurd trivial h
      · cases nodes with
        | nil =>
          rw [← cut_andThen ([], false)]
          exact (inStep_item_cut hitem _).bind (fun _ _ => hcut) (fun _ _ _ => hcut)
            fun _ h => absurd trivial h
        | cons node nodes =>
          exact (inStep_item hitem _ node).bind (fun _ _ => hrest within nodes) (fun h => by cases h)
            fun _ h => absurd trivial h
    · rw [Bool.eq_true_of_not_eq_false hends, if_pos rfl]
      exact ⟨.stop, rfl, fun h => by cases h⟩
  | group head length body closing rest ihbody ihrest =>
    simp only [Layout.customUses, List.forall_mem_append] at hown
    have hbody := ihbody fun h => (hown h).1
    have hrest := ihrest fun h => (hown h).2
    have hcut := (hrest within []).cut (ofFields_nil rest within)
    have hgroup (v : Value) : InStep own GoesOn (Spot.ofGroup _ length _ v) _ ∧
        InStep own GoesOn ([], false) (group ctx head within length (fields ctx body)) :=
      inStep_group hbody (fun within => (hbody within []).cut (ofFields_nil body within)) within
        length v
    rw [← nil_andThen (Spot.ofFields _ within nodes)]
    refine (inStep_endsBefore _).bind (fun ends hends => ?_) (fun h => by cases h)
      fun ends hends => ?_
    · rw [hends, if_neg Bool.false_ne_true]
      cases nodes with
      | nil =>
        rw [show Spot.ofFields _ within [] = Spot.andThen ([], false) ([], false) from rfl]
        exact (hgroup default).2.andThen hcut fun _ => hcut
      | cons node nodes => exact (hgroup node.value).1.andThen (hrest within nodes) fun _ => hcut
    · rw [Bool.eq_true_of_not_eq_false hends, if_pos rfl]
      exact ⟨.stop, rfl, fun h => by cases h⟩

/-- A whole pass from the items of some nodes takes some of them, and all if it succeeds. -/
theorem comes_record {l : Layout} (hown : own → ∀ use ∈ l.customUses, use.MindsItsOwn ctx)
    {nodes : List Field} {s : TakingState}
    (hitems : s.pass.stream.items = (Spot.ofFields l [] nodes).1.map Prod.snd) :
    Comes own (fun _ => True) (Spot.ofFields l [] nodes).1 [] s (record ctx l s) := by
  have hfields := inStep_fields hown [] nodes s [] (fun _ => rfl) (by rwa [List.append_nil])
  rw [List.append_nil] at hfields
  unfold record
  cases hrun : fields ctx l [] s with
  | error e s₁ =>
    rw [hrun] at hfields
    rw [bind_of_error hrun]
    exact hfields
  | ok flow s₁ =>
    rw [hrun] at hfields
    obtain ⟨rest, htakes, -⟩ := hfields
    have hremaining : onPass remaining s₁ = .ok (rest.map Prod.snd) s₁ := by
      rw [← htakes.items]
      rfl
    rw [bind_of_ok hrun, bind_of_ok hremaining]
    refine Comes.behind htakes ?_
    cases rest with
    | nil =>
      have hfinish : InStep own (fun _ => True) ([], true) (onPass (onWriter Writer.finish)) :=
        .onPass (fun s => leavesItems_onWriter _ _ s rfl) fun _ =>
          neverFinds_onWriter Writer.neverFinds_finish
      exact hfinish s₁ [] (fun h => by cases h) htakes.items
    | cons first rest => exact ⟨⟨_, .refl htakes.items⟩, fun _ => trivial⟩

end

end RecordLayout.Encode.Taking
