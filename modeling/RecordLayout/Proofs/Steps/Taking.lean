import RecordLayout.Pass.Encode
import RecordLayout.Proofs.Checked.Fault
import RecordLayout.Proofs.Steps.Spots

/-!
# Writing with an eye on the items

A write pass that notes each item it takes, together with the spot where it takes it: the declaration
it has come to, and the element of every structure array that it is in. It is made of the operations
of the pass and follows the layout in the same way, so that it does what the pass does.
-/

namespace RecordLayout

/-- The state of a write pass with the items taken so far. -/
structure TakingState where
  pass : PassState Feed
  taken : List (Spot × Item)

/-- An operation of a write pass that notes the items it takes. -/
abbrev TakingM := EStateM Error TakingState

namespace Encode.Taking

variable {α β : Type}

/-- An operation of the pass that takes no items. -/
def onPass (m : PassM Feed α) : TakingM α := fun s => onState (fun pass => ⟨pass, s.taken⟩) (m s.pass)

/-- What the second state has no more of the items of the first. -/
def missing (before after : PassState Feed) : List Item :=
  before.stream.items.take (before.stream.items.length - after.stream.items.length)

/-- An operation of the pass that may take items, which it takes at this spot. -/
def atSpot (spot : Spot) (m : PassM Feed α) : TakingM α := fun s =>
  onState (fun pass => ⟨pass, s.taken ++ (missing s.pass pass).map (spot, ·)⟩) (m s.pass)

/-- A number of structures, from the one with the number `k` on. -/
def times (body : Nat → TakingM Flow) : (k count : Nat) → TakingM Flow
  | _, 0 => pure .goOn
  | k, count + 1 => do
    match ← body k with
    | .stop => pure .stop
    | .goOn => times body (k + 1) count

/-- Structures as long as there are items, from the one with the number `k` on. -/
def whileItems (idle : Error) (body : Nat → TakingM Flow) (k : Nat) : TakingM Flow := fun s =>
  if s.pass.stream.items.isEmpty then .ok .goOn s
  else
    match body k s with
    | .error e s' => .error e s'
    | .ok .stop s' => .ok .stop s'
    | .ok .goOn s' =>
      if s'.pass.stream.items.length < s.pass.stream.items.length then
        whileItems idle body (k + 1) s'
      else .error idle s'
termination_by s => s.pass.stream.items.length

/-- A structure or an array of them. -/
def group (ctx : PassContext) (head : Header) (within : List (Nat × Nat)) (length : Option Length)
    (body : List (Nat × Nat) → TakingM Flow) : TakingM Flow :=
  match length with
  | none => body within
  | some length => do
    let declaration := head.describe Kind.opening.name
    let count ← onPass (PassM.arrayCount ctx length)
    let told ← atSpot ⟨within, head.index⟩ toldCount
    let element := fun k => body ((head.index, k) :: within)
    match count, told with
    | some expected, some supplied =>
      if expected = supplied then times element 0 supplied
      else if ctx.options.lenient && supplied < expected then do
        let _ ← times element 0 supplied
        pure .stop
      else throw (.elementCount declaration expected supplied)
    | some n, none => times element 0 n
    | none, some n => times element 0 n
    | none, none => whileItems (.takesNoValues declaration) element 0

/-- Writes the declarations of a layout that stands inside these elements. -/
def fields (ctx : PassContext) : Layout → (within : List (Nat × Nat)) → TakingM Flow
  | .done, _ => pure .goOn
  | .item head decl rest, within => do
    if ← onPass (endsBefore ctx decl.kind.holdsValue) then pure .stop
    else
      atSpot ⟨within, head.index⟩ (item ctx head decl)
      fields ctx rest within
  | .group head length body _ rest, within => do
    if ← onPass (endsBefore ctx body.holdsValue) then pure .stop
    else
      match ← group ctx head within length (fields ctx body) with
      | .stop => pure .stop
      | .goOn => fields ctx rest within

/-- A whole record: every item has to be written. -/
def record (ctx : PassContext) (layout : Layout) : TakingM Unit := do
  let _ ← fields ctx layout []
  let items ← onPass remaining
  if items.isEmpty then onPass (onWriter Writer.finish) else throw (.leftOver items.length)

/-! ## Noting changes nothing -/

/-- A pass that notes what it takes and ends so makes this report. -/
structure Makes {α : Type} (r : EStateM.Result Error TakingState α) (report : PassReport Feed α) :
    Prop where
  result : resultOf r = report.result
  stream : (stateOf r).pass.stream = report.stream
  asked : (stateOf r).pass.asked = report.asked

/-- Apart from what it notes, the operation does what this operation of the pass does. -/
def Does (t : TakingM α) (m : PassM Feed α) : Prop :=
  ∀ s, onState TakingState.pass (t s) = m s.pass

/-- From the front of a record, a pass that notes what it takes makes the report of the pass. -/
theorem Does.makes {t : TakingM α} {m : PassM Feed α} (h : Does t m) (feed : Feed) :
    Makes (t ⟨⟨feed, .empty, []⟩, []⟩) (m.report feed) := by
  unfold PassM.report
  rw [← h ⟨⟨feed, .empty, []⟩, []⟩]
  cases t ⟨⟨feed, .empty, []⟩, []⟩ <;> exact ⟨rfl, rfl, rfl⟩

theorem does_pure (a : α) : Does (pure a) (pure a) := fun _ => rfl

theorem does_throw (e : Error) : Does (throw e : TakingM α) (throw e) := fun _ => rfl

theorem does_onPass (m : PassM Feed α) : Does (onPass m) m := by
  intro s
  unfold onPass
  cases m s.pass <;> rfl

theorem does_atSpot (spot : Spot) (m : PassM Feed α) : Does (atSpot spot m) m := by
  intro s
  unfold atSpot
  cases m s.pass <;> rfl

/-- Operations one behind the other. -/
theorem Does.bind {t : TakingM α} {m : PassM Feed α} {u : α → TakingM β} {g : α → PassM Feed β}
    (h : Does t m) (hrest : ∀ a, Does (u a) (g a)) : Does (t >>= u) (m >>= g) := by
  intro s
  have hs := h s
  cases ht : t s with
  | ok a s₁ =>
    rw [ht] at hs
    rw [bind_of_ok ht, bind_of_ok hs.symm]
    exact hrest a s₁
  | error e s₁ =>
    rw [ht] at hs
    rw [bind_of_error ht, bind_of_error hs.symm]
    rfl

variable {ctx : PassContext} {body : PassM Feed Flow}

/-- Elements that are told, by induction over their number. -/
theorem does_times {element : Nat → TakingM Flow} (h : ∀ k, Does (element k) body) (k count : Nat) :
    Does (times element k count) (Encode.times body count) := by
  induction count generalizing k with
  | zero => exact does_pure _
  | succ count ih =>
    refine (h k).bind fun flow => ?_
    cases flow with
    | stop => exact does_pure _
    | goOn => exact ih (k + 1)

/-- The induction is on the items that are left. -/
theorem does_whileItems {element : Nat → TakingM Flow} (h : ∀ k, Does (element k) body)
    (idle : Error) (k : Nat) : Does (whileItems idle element k) (Encode.whileItems idle body) := by
  intro s
  induction hlength : s.pass.stream.items.length using Nat.strongRecOn generalizing s k with
  | ind n ih =>
  rw [whileItems, Encode.whileItems]
  have hs := h k s
  by_cases hempty : s.pass.stream.items.isEmpty = true
  · rw [if_pos hempty, if_pos hempty]
    rfl
  · rw [if_neg hempty, if_neg hempty, ← hs]
    cases element k s with
    | error e s₁ => rfl
    | ok flow s₁ =>
      cases flow with
      | stop => rfl
      | goOn =>
        by_cases hless : s₁.pass.stream.items.length < s.pass.stream.items.length
        · simp only [onState, if_pos hless]
          exact ih _ (hlength ▸ hless) (k + 1) s₁ rfl
        · simp only [onState, if_neg hless]

/-- A structure, or an array of them with the numbers of its elements. -/
theorem does_group {head : Header} {within : List (Nat × Nat)}
    {element : List (Nat × Nat) → TakingM Flow} (h : ∀ within, Does (element within) body)
    (length : Option Length) :
    Does (group ctx head within length element) (Encode.group ctx head length body) := by
  cases length with
  | none => exact h within
  | some length =>
    refine (does_onPass _).bind fun count => (does_atSpot _ _).bind fun told => ?_
    have hbody : ∀ k, Does (element ((head.index, k) :: within)) body := fun k => h _
    cases count with
    | none =>
      cases told with
      | none => exact does_whileItems hbody _ 0
      | some n => exact does_times hbody 0 n
    | some expected =>
      cases told with
      | none => exact does_times hbody 0 expected
      | some supplied =>
        dsimp only
        split
        · exact does_times hbody 0 supplied
        · split
          · exact (does_times hbody 0 supplied).bind fun _ => does_pure _
          · exact does_throw _

/-- A whole layout, by induction over it. -/
theorem does_fields (l : Layout) (within : List (Nat × Nat)) :
    Does (fields ctx l within) (Encode.fields ctx l) := by
  induction l generalizing within with
  | done => exact does_pure _
  | item head decl rest ih =>
    refine (does_onPass _).bind fun ends => ?_
    split
    · exact does_pure _
    · exact (does_atSpot _ _).bind fun _ => ih within
  | group head length body closing rest ihbody ihrest =>
    refine (does_onPass _).bind fun ends => ?_
    split
    · exact does_pure _
    · refine (does_group ihbody length).bind fun flow => ?_
      cases flow with
      | stop => exact does_pure _
      | goOn => exact ihrest within

theorem does_record (l : Layout) : Does (record ctx l) (Encode.record ctx l) := by
  refine (does_fields l []).bind fun _ => (does_onPass _).bind fun items => ?_
  split
  · exact does_onPass _
  · exact does_throw _

end Encode.Taking

end RecordLayout
