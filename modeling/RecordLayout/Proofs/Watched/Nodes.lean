import RecordLayout.Proofs.Watched.Basic

/-!
# The nodes of a pass

The nodes in the past of a pass are those of its record: `NodesRead` compares them with the tree that
is read.

`Brings` follows the nodes and the stream through the operations that succeed. Most operations add no
node and leave the stream alone, which `Quiet` says of those that both passes share.
-/

namespace RecordLayout

/-- The nodes of a past in document order, each with the index of its declaration. -/
def nodesOf (past : List Event) : List (Nat × Value) :=
  past.reverse.filterMap fun
    | .node i v => some (i, v)
    | _ => none

section

variable {past : List Event}

theorem nodesOf_node (i : Nat) (v : Value) :
    nodesOf (.node i v :: past) = nodesOf past ++ [(i, v)] := by
  simp [nodesOf]

theorem nodesOf_element (a : Nat) : nodesOf (.element a :: past) = nodesOf past := by
  simp [nodesOf]

theorem nodesOf_evaluated (i : Nat) (e : Expr) (env : Expr.Env) :
    nodesOf (.evaluated i e env :: past) = nodesOf past := by
  simp [nodesOf]

end

/-! ## Conditions on nodes -/

/-- A condition on the nodes so far and on the stream. -/
abbrev Ledger (δ : Type) := List (Nat × Value) → δ → Prop

/-- Where the first condition holds the operation comes to the second if it succeeds. -/
def Brings {δ α : Type} (A : Ledger δ) (w : WatchedM δ α) (B : α → Ledger δ) : Prop :=
  ∀ s, A (nodesOf s.past) s.pass.stream → ∀ x s', w s = .ok x s' →
    B x (nodesOf s'.past) s'.pass.stream

/-- The operation adds no node and leaves the stream alone. -/
def Quiet {δ α : Type} (w : WatchedM δ α) : Prop :=
  ∀ A : Ledger δ, Brings A w fun _ => A

namespace Brings

variable {δ α β : Type} {A : Ledger δ} {B : α → Ledger δ} {C : β → Ledger δ}

theorem pure {a : α} (h : ∀ nodes stream, A nodes stream → B a nodes stream) :
    Brings A (Pure.pure a) B := by
  intro s hs x s' hrun
  cases hrun
  exact h _ _ hs

theorem raise {e : Error} : Brings A (RecordLayout.raise e) B := by
  intro s hs x s' hrun
  cases hrun

/-- Operations one behind the other bring what the second brings from what the first does. -/
theorem bind {w : WatchedM δ α} {v : α → WatchedM δ β} (hw : Brings A w B)
    (hv : ∀ a, Brings (B a) (v a) C) : Brings A (w >>= v) C := by
  intro s hs x s' hrun
  obtain ⟨a, s₁, hfirst, hsecond⟩ := bind_eq_ok.mp hrun
  exact hv a s₁ (hw s hs a s₁ hfirst) x s' hsecond

theorem map {w : WatchedM δ α} {f : α → β} (hw : Brings A w fun a => C (f a)) :
    Brings A (f <$> w) C := by
  intro s hs x s' hrun
  obtain ⟨a, ha, rfl⟩ := map_eq_ok.mp hrun
  exact hw s hs a s' ha

/-- A result that is changed where the condition does not look at it. -/
theorem map_const {w : WatchedM δ α} {A' : Ledger δ} (f : α → β) (hw : Brings A w fun _ => A') :
    Brings A (f <$> w) fun _ => A' := hw.map (C := fun _ => A')

theorem imp {B' : α → Ledger δ} {w : WatchedM δ α} (hw : Brings A w B)
    (h : ∀ a nodes stream, B a nodes stream → B' a nodes stream) : Brings A w B' :=
  fun s hs x s' hrun => h x _ _ (hw s hs x s' hrun)

end Brings

namespace Quiet

variable {δ α β : Type}

theorem pure (a : α) : Quiet (Pure.pure a : WatchedM δ α) := fun _ => Brings.pure fun _ _ h => h

theorem raise (e : Error) : Quiet (RecordLayout.raise e : WatchedM δ α) := fun _ => Brings.raise

theorem bind {w : WatchedM δ α} {v : α → WatchedM δ β} (hw : Quiet w) (hv : ∀ a, Quiet (v a)) :
    Quiet (w >>= v) := fun A => (hw A).bind fun a => hv a A

theorem map {w : WatchedM δ α} (f : α → β) (hw : Quiet w) : Quiet (f <$> w) :=
  fun A => (hw A).map

end Quiet

namespace PassM.Watched

variable {δ α : Type} {ctx : PassContext} {head : Header}

theorem brings_onStream {A : Ledger δ} (hA : ∀ nodes stream stream', A nodes stream → A nodes stream')
    (w : CheckedM δ α) : Brings A (onStream w) fun _ => A := by
  intro s hs x s' hrun
  simp only [onStream] at hrun
  cases hw : w s.pass.stream with
  | ok y stream =>
    rw [hw] at hrun
    cases hrun
    exact hA _ _ _ hs
  | error e stream =>
    rw [hw] at hrun
    cases hrun

/-- A node that is noted is the last one. -/
theorem brings_note_node {A B : Ledger δ} {i : Nat} {v : Value}
    (h : ∀ nodes stream, A nodes stream → B (nodes ++ [(i, v)]) stream) :
    Brings A (note (.node i v)) fun _ => B := by
  intro s hs x s' hrun
  cases hrun
  rw [nodesOf_node]
  exact h _ _ hs

theorem quiet_note_element (a : Nat) : Quiet (note (δ := δ) (.element a)) := by
  intro A s hs x s' hrun
  cases hrun
  rwa [nodesOf_element]

theorem quiet_register (info : Option FieldInfo) (v : Value) :
    Quiet (register (δ := δ) info v) := by
  unfold register
  split
  · intro A s hs x s' hrun
    cases hrun
    exact hs
  · exact Quiet.pure _

theorem quiet_nonNegative (quantity : Quantity) (v : Int64) :
    Quiet (nonNegative (δ := δ) ctx quantity v) := by
  unfold nonNegative
  split
  · exact Quiet.pure _
  · split
    · exact Quiet.pure _
    · exact Quiet.raise _

variable [ByteCounter δ]

/-- An expression adds no node: its evaluation is another event. -/
theorem quiet_eval (e : Expr) : Quiet (eval (δ := δ) ctx head e) := by
  intro A s hs x s' hrun
  simp only [eval] at hrun
  cases he : e.eval (PassM.env ctx s.pass) with
  | ok v =>
    rw [he] at hrun
    cases hrun
    rwa [nodesOf_evaluated]
  | error e =>
    rw [he] at hrun
    cases hrun

theorem quiet_amount (a : Amount) : Quiet (amount (δ := δ) ctx head a) := by
  cases a with
  | const n => exact Quiet.pure _
  | computed e => exact quiet_eval e

theorem quiet_arrayCount (length : Length) : Quiet (arrayCount (δ := δ) ctx head length) := by
  cases length with
  | const n => exact Quiet.pure _
  | computed e => exact (quiet_eval e).bind fun v => (quiet_nonNegative _ v).map some
  | unbounded => exact Quiet.pure _

theorem quiet_bitWidth (type : ElementType) : Quiet (bitWidth (δ := δ) ctx head type) := by
  cases type with
  | bit width =>
    refine (quiet_amount width).bind fun w => ?_
    split
    · exact Quiet.pure _
    · exact Quiet.raise _
  | fixed _ | text | custom _ _ => exact Quiet.pure _

theorem quiet_alignment (a : Amount) : Quiet (alignment (δ := δ) ctx head a) := by
  refine (quiet_amount a).bind fun n => ?_
  dsimp only
  split
  · exact (Quiet.raise _).bind fun _ => Quiet.pure _
  · exact Quiet.pure _

theorem quiet_skipCount (a : Amount) : Quiet (skipCount (δ := δ) ctx head a) :=
  (quiet_amount a).bind fun n => quiet_nonNegative _ n

theorem quiet_customField (use : CustomUse) (extra : Option Amount) :
    Quiet (customField (δ := δ) ctx head use extra) := by
  cases extra with
  | none => exact (Quiet.pure none).bind fun _ => Quiet.pure _
  | some a => exact ((quiet_amount a).map some).bind fun _ => Quiet.pure _

end PassM.Watched

end RecordLayout
