import RecordLayout.Proofs.Watched.Past

/-!
# Passes see the latest nodes

Every operation of a watched pass keeps what `Layout.Ready` says, and a declaration adds its own
site to those in front. An element of a structure array begins with the sites in front of the
array; behind the array, what stands in its elements is of no account any more.

Here are the operations that both passes share.
-/

namespace RecordLayout

open Layout

/-- The expression of a parameter, if it has one, knows its fields. -/
def Amount.Knows (seen : List Declared) (a : Amount) : Prop := ∀ e ∈ a.expr?, e.Knows seen

/-- The expression of a parameter knows its fields where those of the declaration do. -/
theorem Decl.amount_knows {decl : Decl} {seen : List Declared}
    (h : ∀ e ∈ decl.exprs, e.Knows seen) {a : Amount} (ha : decl.amount = some a) : a.Knows seen := by
  intro e he
  apply h
  apply List.mem_append_left
  rw [ha, Option.bind_some]
  exact Option.mem_toList.mpr he

theorem Decl.length_knows {decl : Decl} {seen : List Declared}
    (h : ∀ e ∈ decl.exprs, e.Knows seen) :
    ∀ e ∈ decl.length.bind Length.expr?, e.Knows seen := by
  intro e he
  apply h
  apply List.mem_append_right
  exact Option.mem_toList.mpr he

namespace PassM.Watched

variable {δ α : Type} {l : Layout} {ctx : PassContext} {before : List Site} {head : Header}
  {p : Site} {arrays : List Nat}

theorem runs_onStream {A : Condition} (hA : ∀ n past, A n past → l.Faithful past)
    (w : CheckedM δ α) : l.Runs A (onStream w) fun _ => A := by
  intro s hs
  unfold onStream
  cases w s.pass.stream with
  | ok x stream => exact hs
  | error e stream => exact hA _ _ hs

theorem runs_note {A B : Condition} {event : Event} (h : ∀ n past, A n past → B n (event :: past)) :
    l.Runs (δ := δ) A (note event) fun _ => B := fun _ hs => h _ _ hs

theorem runs_nonNegative {A : Condition} (hA : ∀ n past, A n past → l.Faithful past)
    (quantity : Quantity) (v : Int64) :
    l.Runs (δ := δ) A (nonNegative ctx quantity v) fun _ => A := by
  unfold nonNegative
  split
  · exact Runs.pure fun _ _ h => h
  · split
    · exact Runs.pure fun _ _ h => h
    · exact Runs.raise hA

/-- Remembering the value of a numeric declaration. -/
theorem register_apply (info : Option FieldInfo) (v : Value) (s : WatchedState δ) :
    ∃ numbers, register info v s = .ok () { s with pass := { s.pass with numbers := numbers } } ∧
      (∀ i, info.map FieldInfo.index ≠ some i → numbers.get? i = s.pass.numbers.get? i) ∧
      ∀ i, info.map FieldInfo.index = some i → v.asInt.isSome →
        (numbers.get? i).map some = some v.asInt := by
  unfold register
  cases info with
  | none => exact ⟨_, rfl, fun _ _ => rfl, fun _ h => by cases h⟩
  | some info =>
    cases hv : v.asInt with
    | none => exact ⟨_, rfl, fun _ _ => rfl, fun _ _ h => by cases h⟩
    | some n =>
      refine ⟨_, rfl, fun i hi => ?_, fun i hi _ => ?_⟩
      · rw [Numbers.get?_put, if_neg fun h => hi (congrArg some h)]
      · rw [Numbers.get?_put, if_pos (Option.some_inj.mp hi)]
        rfl

variable [ByteCounter δ] (hp : Evaluates l before arrays head p)
include hp

/-- An expression sees the latest nodes of all that it knows. -/
theorem runs_eval {e : Expr} (hknows : e.Knows (Site.names before)) :
    l.Runs (δ := δ) (l.Ready before arrays) (eval ctx head e) fun _ => l.Ready before arrays := by
  intro s hs
  have henv : (PassM.env ctx s.pass).numbers = s.pass.numbers := rfl
  have hready := hs.evaluated hp.placed hp.stands hp.arrays henv hknows
  rw [hp.index] at hready
  simp only [eval]
  cases e.eval (PassM.env ctx s.pass) with
  | ok v => exact hready
  | error e => exact hready.faithful

theorem runs_amount {a : Amount} (hknows : a.Knows (Site.names before)) :
    l.Runs (δ := δ) (l.Ready before arrays) (amount ctx head a) fun _ => l.Ready before arrays := by
  cases a with
  | const n => exact Runs.pure fun _ _ h => h
  | computed e => exact runs_eval hp (hknows e rfl)

theorem runs_arrayCount {length : Length}
    (hknows : ∀ e ∈ length.expr?, e.Knows (Site.names before)) :
    l.Runs (δ := δ) (l.Ready before arrays) (arrayCount ctx head length)
      fun _ => l.Ready before arrays := by
  cases length with
  | const n => exact Runs.pure fun _ _ h => h
  | computed e =>
    refine (runs_eval hp (hknows e rfl)).bind fun v => ?_
    exact (runs_nonNegative (fun _ _ h => h.faithful) _ v).map_const some
  | unbounded => exact Runs.pure fun _ _ h => h

theorem runs_bitWidth {type : ElementType} {length : Option Length}
    (hknows : ∀ a ∈ (Decl.value type length).amount, a.Knows (Site.names before)) :
    l.Runs (δ := δ) (l.Ready before arrays) (bitWidth ctx head type)
      fun _ => l.Ready before arrays := by
  cases type with
  | bit width =>
    refine (runs_amount hp (hknows width rfl)).bind fun w => ?_
    split
    · exact Runs.pure fun _ _ h => h
    · exact Runs.raise fun _ _ h => h.faithful
  | fixed _ | text | custom _ _ => exact Runs.pure fun _ _ h => h

theorem runs_alignment {a : Amount} (hknows : a.Knows (Site.names before)) :
    l.Runs (δ := δ) (l.Ready before arrays) (alignment ctx head a)
      fun _ => l.Ready before arrays := by
  refine (runs_amount hp hknows).bind fun n => ?_
  dsimp only
  split
  · refine (Runs.raise fun _ _ h => h.faithful : l.Runs _ _ fun _ _ _ => False).bind fun _ => ?_
    exact fun _ h => h.elim
  · exact Runs.pure fun _ _ h => h

theorem runs_skipCount {a : Amount} (hknows : a.Knows (Site.names before)) :
    l.Runs (δ := δ) (l.Ready before arrays) (skipCount ctx head a)
      fun _ => l.Ready before arrays :=
  (runs_amount hp hknows).bind fun n => runs_nonNegative (fun _ _ h => h.faithful) _ n

theorem runs_customField {use : CustomUse} {extra : Option Amount}
    (hknows : ∀ a ∈ extra, a.Knows (Site.names before)) :
    l.Runs (δ := δ) (l.Ready before arrays) (customField ctx head use extra)
      fun _ => l.Ready before arrays := by
  cases extra with
  | none =>
    exact Runs.bind (B := fun _ => l.Ready before arrays) (Runs.pure fun _ _ h => h)
      fun _ => Runs.pure fun _ _ h => h
  | some a =>
    have hamount : l.Runs (δ := δ) (l.Ready before arrays) (some <$> amount ctx head a)
        fun _ => l.Ready before arrays := (runs_amount hp (hknows a rfl)).map_const some
    exact hamount.bind fun _ => Runs.pure fun _ _ h => h

omit [ByteCounter δ]

/-- The value of the declaration, remembered if need be, becomes its node. -/
theorem runs_node {v : Value} (remembered : WatchedM δ Unit)
    (hremembered : ∀ s, ∃ numbers,
      remembered s = .ok () { s with pass := { s.pass with numbers := numbers } } ∧
      (∀ i, i ≠ p.index → numbers.get? i = s.pass.numbers.get? i) ∧
      (p.numeric → p.name.isSome → (numbers.get? p.index).map some = some v.asInt)) :
    l.Runs (l.Ready before arrays) (remembered >>= fun _ => note (.node head.index v))
      fun _ => l.Ready (before ++ [p]) arrays := by
  intro s hs
  obtain ⟨numbers, hrun, hothers, hself⟩ := hremembered s
  have hready := hs.node hp.placed hp.stands hothers hself
  rw [hp.index] at hready
  rw [bind_of_ok hrun]
  exact hready

/-- A value is remembered and becomes a node; that of a numeric declaration is an integer. -/
theorem runs_register_node {v : Value} (hinfo : p.name = head.info)
    (hv : p.numeric → v.asInt.isSome) :
    l.Runs (l.Ready before arrays)
      (register head.info v >>= fun _ => note (δ := δ) (.node head.index v))
      fun _ => l.Ready (before ++ [p]) arrays := by
  refine runs_node hp _ fun s => ?_
  have hnamed := hp.placed.named p hp.stands.mem
  rw [hinfo] at hnamed ⊢
  obtain ⟨numbers, hrun, hothers, hself⟩ := register_apply head.info v s
  refine ⟨numbers, hrun, fun i hi => hothers i ?_, fun hnumeric hname => ?_⟩
  · intro hindex
    obtain ⟨info, hinfo, rfl⟩ := Option.map_eq_some_iff.mp hindex
    exact hi (hnamed info hinfo)
  · obtain ⟨info, hinfo⟩ := Option.isSome_iff_exists.mp hname
    refine hself _ ?_ (hv hnumeric)
    rw [hinfo, Option.map_some, hnamed info hinfo]

/-- A value that is not remembered, of a declaration that is not numeric, becomes a node. -/
theorem runs_note_node {v : Value} (hnumeric : p.numeric = false) :
    l.Runs (l.Ready before arrays) (note (δ := δ) (.node head.index v))
      fun _ => l.Ready (before ++ [p]) arrays := by
  have h := runs_node (v := v) hp (pure () : WatchedM δ Unit) fun s =>
    ⟨s.pass.numbers, rfl, fun _ _ => rfl, fun hp => by rw [hnumeric] at hp; cases hp⟩
  rwa [pure_bind] at h

end PassM.Watched

/-! ## Structures -/

namespace PassM.Watched

variable {δ α : Type} {l : Layout} {before inner : List Site} {head : Header} {p : Site}
  {arrays : List Nat}

/-- What holds behind elements: the first condition if the pass goes on, the second if it stops. -/
def onFlow (A B : Condition) : Flow → Condition
  | .goOn => A
  | .stop => B

/-- One element of a structure array: what it holds is of no account behind it. -/
theorem runs_structure {length : Length} {body : WatchedM δ α} {flow : α → Flow}
    (hp : Evaluates l before arrays head p)
    (hbody : l.Runs (l.Ready (before ++ [p]) (within arrays head (some length))) body fun x =>
      onFlow (l.Ready (before ++ [p] ++ inner) (within arrays head (some length)))
        (fun _ past => l.Faithful past) (flow x)) :
    l.Runs (l.Ready (before ++ [p]) arrays) (note (.element head.index) >>= fun _ => body) fun x =>
      onFlow (l.Ready (before ++ [p]) arrays) (fun _ past => l.Faithful past) (flow x) := by
  have henter : l.Runs (δ := δ) (l.Ready (before ++ [p]) arrays) (note (.element head.index))
      fun _ => l.Ready (before ++ [p]) (within arrays head (some length)) := by
    refine runs_note fun n past h => ?_
    have helement := h.enter hp.placed hp.stands
    rwa [hp.index] at helement
  refine (henter.bind fun _ => hbody).imp fun x n past h => ?_
  cases hflow : flow x with
  | stop =>
    rw [hflow] at h
    exact h
  | goOn =>
    rw [hflow] at h
    have hleave : l.Ready (before ++ [p] ++ inner) (arrays ++ [p.index]) n past := by
      rw [hp.index]
      exact h
    exact hleave.leave

end PassM.Watched

end RecordLayout
