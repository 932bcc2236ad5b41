import RecordLayout.Layout.Listing
import RecordLayout.Proofs.Watched.Decode
import RecordLayout.Proofs.Watched.Encode
import RecordLayout.Proofs.Watched.Seeing

/-!
# What passes evaluate

The evaluations of a pass are in its past. A declaration that is read or written evaluates its
expressions once each, the one of the parameter before the one of the length, all of them in what
holds before it: neither the item that a write takes nor the elements of an array come in between,
and no expression is evaluated for an element. Both passes put the questions of these expressions to
the resolver, and no others.

Custom types evaluate their parameter for each element, so these declarations have none.
-/

namespace RecordLayout

/-- An expression of the declaration with an index, and what it is evaluated in. -/
structure Evaluation where
  declaration : Nat
  expr : Expr
  env : Expr.Env

/-- The evaluations of a past, the earliest first. -/
def evaluationsOf (past : List Event) : List Evaluation :=
  past.reverse.filterMap fun
    | .evaluated i e env => some ⟨i, e, env⟩
    | _ => none

section

variable {past : List Event}

theorem evaluationsOf_node (i : Nat) (v : Value) :
    evaluationsOf (.node i v :: past) = evaluationsOf past := by
  simp [evaluationsOf]

theorem evaluationsOf_element (a : Nat) :
    evaluationsOf (.element a :: past) = evaluationsOf past := by
  simp [evaluationsOf]

theorem evaluationsOf_evaluated (i : Nat) (e : Expr) (env : Expr.Env) :
    evaluationsOf (.evaluated i e env :: past) = evaluationsOf past ++ [⟨i, e, env⟩] := by
  simp [evaluationsOf]

end

variable {δ α β : Type} [ByteCounter δ] {ctx : PassContext} {head : Header} {i : Nat}
  {es es' : List Expr}

/-- Between the states the declaration with an index evaluated these expressions, in what the first
state holds, and they put their questions to the resolver. -/
structure Logs (ctx : PassContext) (i : Nat) (es : List Expr) (s s' : WatchedState δ) :
    Prop where
  evaluations : evaluationsOf s'.past =
    evaluationsOf s.past ++ es.map (⟨i, ·, PassM.env ctx s.pass⟩)
  asked : s'.pass.asked = s.pass.asked ++ es.flatMap (Expr.asked (PassM.env ctx s.pass))

/-- Where it succeeds, the operation evaluates these expressions. -/
def Evaluating (ctx : PassContext) (i : Nat) (es : List Expr) (w : WatchedM δ α) : Prop :=
  ∀ s x s', w s = .ok x s' → Logs ctx i es s s'

/-- It changes nothing that further expressions would be evaluated in. -/
def Consulting (ctx : PassContext) (i : Nat) (es : List Expr) (w : WatchedM δ α) : Prop :=
  ∀ s x s', w s = .ok x s' →
    Logs ctx i es s s' ∧ PassM.env ctx s'.pass = PassM.env ctx s.pass

namespace Logs

variable {s s₁ s' : WatchedState δ}

theorem of_same (hpast : evaluationsOf s'.past = evaluationsOf s.past)
    (hasked : s'.pass.asked = s.pass.asked) : Logs ctx i [] s s' :=
  ⟨by rw [hpast, List.map_nil, List.append_nil], by rw [hasked, List.flatMap_nil, List.append_nil]⟩

/-- What is evaluated first leaves unchanged what the second part is evaluated in. -/
theorem trans (h : Logs ctx i es s s₁) (henv : PassM.env ctx s₁.pass = PassM.env ctx s.pass)
    (h' : Logs ctx i es' s₁ s') : Logs ctx i (es ++ es') s s' := by
  constructor
  · rw [h'.evaluations, h.evaluations, henv, List.map_append, List.append_assoc]
  · rw [h'.asked, h.asked, henv, List.flatMap_append, List.append_assoc]

/-- What evaluates nothing may change everything. -/
theorem behind (h : Logs ctx i es s s₁) (h' : Logs ctx i [] s₁ s') :
    Logs ctx i es s s' := by
  have hpast := h'.evaluations
  have hasked := h'.asked
  rw [List.map_nil, List.append_nil] at hpast
  rw [List.flatMap_nil, List.append_nil] at hasked
  exact ⟨hpast.trans h.evaluations, hasked.trans h.asked⟩

end Logs

namespace Consulting

variable {w : WatchedM δ α} {v : α → WatchedM δ β}

theorem evaluating (h : Consulting ctx i es w) : Evaluating ctx i es w :=
  fun s x s' hrun => (h s x s' hrun).1

theorem pure (a : α) : Consulting ctx i [] (Pure.pure a : WatchedM δ α) := by
  intro s x s' hrun
  cases hrun
  exact ⟨.of_same rfl rfl, rfl⟩

theorem raise (e : Error) : Consulting ctx i es (RecordLayout.raise e : WatchedM δ α) := by
  intro s x s' hrun
  cases hrun

/-- Operations in a row consult their expressions in a row. -/
theorem bind (hw : Consulting ctx i es w) (hv : ∀ a, Consulting ctx i es' (v a)) :
    Consulting ctx i (es ++ es') (w >>= v) := by
  intro s x s' hrun
  obtain ⟨a, s₁, hfirst, hsecond⟩ := bind_eq_ok.mp hrun
  obtain ⟨hlogs, henv⟩ := hw s a s₁ hfirst
  obtain ⟨hlogs', henv'⟩ := hv a s₁ x s' hsecond
  exact ⟨hlogs.trans henv hlogs', henv'.trans henv⟩

theorem behind (hw : Consulting ctx i es w) (hv : ∀ a, Consulting ctx i [] (v a)) :
    Consulting ctx i es (w >>= v) := by
  have hbind := hw.bind hv
  rwa [List.append_nil] at hbind

theorem map (f : α → β) (hw : Consulting ctx i es w) : Consulting ctx i es (f <$> w) := by
  intro s x s' hrun
  obtain ⟨a, ha, -⟩ := map_eq_ok.mp hrun
  exact hw s a s' ha

end Consulting

namespace Evaluating

variable {w : WatchedM δ α} {v : α → WatchedM δ β}

theorem pure (a : α) : Evaluating ctx i [] (Pure.pure a : WatchedM δ α) :=
  (Consulting.pure a).evaluating

theorem raise (e : Error) : Evaluating ctx i es (RecordLayout.raise e : WatchedM δ α) :=
  (Consulting.raise e).evaluating

theorem fault (f : Fault) : Evaluating ctx i es (RecordLayout.fault f : WatchedM δ α) := by
  intro s x s' hrun
  cases hrun

/-- The expressions of the second operation are evaluated in what held before the first. -/
theorem behind_consulting (hw : Consulting ctx i es w)
    (hv : ∀ a, Evaluating ctx i es' (v a)) : Evaluating ctx i (es ++ es') (w >>= v) := by
  intro s x s' hrun
  obtain ⟨a, s₁, hfirst, hsecond⟩ := bind_eq_ok.mp hrun
  obtain ⟨hlogs, henv⟩ := hw s a s₁ hfirst
  exact hlogs.trans henv (hv a s₁ x s' hsecond)

theorem behind (hw : Evaluating ctx i es w) (hv : ∀ a, Evaluating ctx i [] (v a)) :
    Evaluating ctx i es (w >>= v) := by
  intro s x s' hrun
  obtain ⟨a, s₁, hfirst, hsecond⟩ := bind_eq_ok.mp hrun
  exact (hw s a s₁ hfirst).behind (hv a s₁ x s' hsecond)

theorem map (f : α → β) (hw : Evaluating ctx i es w) : Evaluating ctx i es (f <$> w) := by
  intro s x s' hrun
  obtain ⟨a, ha, -⟩ := map_eq_ok.mp hrun
  exact hw s a s' ha

end Evaluating

/-! ## Parameters -/

namespace PassM.Watched

theorem consulting_eval (e : Expr) : Consulting (δ := δ) ctx head.index [e] (eval ctx head e) := by
  intro s x s' hrun
  simp only [eval] at hrun
  cases hvalue : e.eval (env ctx s.pass) with
  | error e' =>
    rw [hvalue] at hrun
    cases hrun
  | ok v =>
    rw [hvalue] at hrun
    cases hrun
    refine ⟨⟨evaluationsOf_evaluated _ _ _, ?_⟩, rfl⟩
    rw [List.flatMap_singleton]

theorem consulting_amount (a : Amount) :
    Consulting (δ := δ) ctx head.index a.expr?.toList (amount ctx head a) := by
  cases a with
  | const n => exact .pure _
  | computed e => exact consulting_eval e

theorem consulting_nonNegative (quantity : Quantity) (v : Int64) :
    Consulting (δ := δ) ctx i [] (nonNegative ctx quantity v) := by
  unfold nonNegative
  split
  · exact .pure _
  · split
    · exact .pure _
    · exact .raise _

theorem consulting_arrayCount (l : Length) :
    Consulting (δ := δ) ctx head.index l.expr?.toList (arrayCount ctx head l) := by
  cases l with
  | const n => exact .pure _
  | computed e => exact (consulting_eval e).behind fun v => (consulting_nonNegative _ v).map some
  | unbounded => exact .pure _

theorem consulting_bitWidth {type : ElementType} {length : Option Length}
    (hcustom : (Decl.value type length).customUse = none) :
    Consulting (δ := δ) ctx head.index ((Decl.value type length).amount.bind Amount.expr?).toList
      (bitWidth ctx head type) := by
  cases type with
  | bit width =>
    refine (consulting_amount width).behind fun w => ?_
    split
    · exact .pure _
    · exact .raise _
  | fixed _ | text => exact .pure _
  | custom use extra => cases hcustom

theorem consulting_alignment (a : Amount) :
    Consulting (δ := δ) ctx head.index a.expr?.toList (alignment ctx head a) := by
  refine (consulting_amount a).behind fun n => ?_
  dsimp only
  split
  · exact .behind (.raise _) fun _ => .pure _
  · exact .pure _

theorem consulting_skipCount (a : Amount) :
    Consulting (δ := δ) ctx head.index a.expr?.toList (skipCount ctx head a) :=
  (consulting_amount a).behind fun n => consulting_nonNegative _ n

/-! ## Operations that evaluate nothing -/

/-- The stream evaluates nothing, but what is evaluated later may see that it moved. -/
theorem evaluating_onStream (w : CheckedM δ α) : Evaluating ctx i [] (onStream w) := by
  intro s x s' hrun
  simp only [onStream] at hrun
  cases hw : w s.pass.stream with
  | ok y stream =>
    rw [hw] at hrun
    cases hrun
    exact .of_same rfl rfl
  | error e stream =>
    rw [hw] at hrun
    cases hrun

theorem evaluating_note_node (j : Nat) (v : Value) :
    Evaluating (δ := δ) ctx i [] (note (.node j v)) := by
  intro s x s' hrun
  cases hrun
  exact .of_same (evaluationsOf_node j v) rfl

theorem evaluating_register (info : Option FieldInfo) (v : Value) :
    Evaluating (δ := δ) ctx i [] (register info v) := by
  intro s x s' hrun
  obtain ⟨numbers, hregister, -, -⟩ := register_apply info v s
  cases hrun.symm.trans hregister
  exact .of_same rfl rfl

end PassM.Watched

open PassM.Watched

/-! ## Reading -/

namespace Decode.Watched

/-- A look for the end of the stream, or none. -/
def Looks (ctx : PassContext) (least : Nat) (s s' : WatchedState Reader) : Prop :=
  s' = s ∨ ∃ ends, onStream (Reader.Checked.atEndFor least ctx.options.bitOrder) s = .ok ends s'

/-- The elements of a repetition, one behind the other, with looks for the end of the stream before
and behind them. -/
inductive Rounds (ctx : PassContext) (least : Nat) (element : WatchedM Reader (Step α)) :
    WatchedState Reader → List α → Flow → WatchedState Reader → Prop
  | done {s s' : WatchedState Reader} (look : Looks ctx least s s') :
      Rounds ctx least element s [] .goOn s'
  | last {s s₁ s' : WatchedState Reader} {x : Option α} (look : Looks ctx least s s₁)
      (one : element s₁ = .ok (.last x) s') : Rounds ctx least element s x.toList .stop s'
  | next {s s₁ s₂ s' : WatchedState Reader} {x : α} {xs : List α} {flow : Flow}
      (look : Looks ctx least s s₁) (one : element s₁ = .ok (.next x) s₂)
      (rest : Rounds ctx least element s₂ xs flow s') :
      Rounds ctx least element s (x :: xs) flow s'

section

variable {element : WatchedM Reader (Step α)} {least : Nat} {s s' : WatchedState Reader}
  {xs : List α} {flow : Flow}

/-- Elements that are counted are rounds without looks. -/
theorem rounds_times {count : Nat} (h : times element count s = .ok (xs, flow) s') :
    Rounds ctx least element s xs flow s' := by
  induction count generalizing s xs flow with
  | zero =>
    cases h
    exact .done (.inl rfl)
  | succ count ih =>
    rw [times] at h
    obtain ⟨step, s₁, hstep, h⟩ := bind_eq_ok.mp h
    cases step with
    | last x =>
      cases h
      exact .last (.inl rfl) hstep
    | next x =>
      obtain ⟨⟨more, flow'⟩, s₂, hmore, h⟩ := bind_eq_ok.mp h
      cases h
      exact .next (.inl rfl) hstep (ih hmore)

/-- The induction is on the bits that remain. -/
theorem rounds_toEnd {idle : Error}
    (h : toEnd least ctx.options.bitOrder idle element s = .ok (xs, flow) s') :
    Rounds ctx least element s xs flow s' := by
  induction hremaining : s.pass.stream.remaining using Nat.strongRecOn generalizing s xs flow with
  | ind n ih =>
  rw [toEnd] at h
  cases hlook : onStream (Reader.Checked.atEndFor least ctx.options.bitOrder) s with
  | error e s₁ =>
    rw [hlook] at h
    cases h
  | ok ends s₁ =>
    rw [hlook] at h
    cases ends with
    | true =>
      cases h
      exact .done (.inr ⟨true, hlook⟩)
    | false =>
      simp only at h
      cases hstep : element s₁ with
      | error e s₂ =>
        rw [hstep] at h
        cases h
      | ok step s₂ =>
        rw [hstep] at h
        cases step with
        | last x =>
          cases h
          exact .last (.inr ⟨false, hlook⟩) hstep
        | next x =>
          simp only at h
          split at h
          · rename_i hless
            cases hmore : toEnd least ctx.options.bitOrder idle element s₂ with
            | error e s₃ =>
              rw [hmore] at h
              cases h
            | ok found s₃ =>
              obtain ⟨more, flow'⟩ := found
              rw [hmore] at h
              cases h
              exact .next (.inr ⟨false, hlook⟩) hstep (ih _ (hremaining ▸ hless) hmore rfl)
          · cases h

theorem rounds_elements {idle : Error} {count : Option Nat}
    (h : elements ctx least idle element count s = .ok (xs, flow) s') :
    Rounds ctx least element s xs flow s' := by
  cases count with
  | some n => exact rounds_times h
  | none => exact rounds_toEnd h

theorem Looks.logs (h : Looks ctx least s s') : Logs ctx i [] s s' := by
  rcases h with rfl | ⟨ends, h⟩
  · exact .of_same rfl rfl
  · exact evaluating_onStream _ s ends s' h

theorem Rounds.logs (helement : Evaluating ctx i [] element)
    (h : Rounds ctx least element s xs flow s') : Logs ctx i [] s s' := by
  induction h with
  | done look => exact look.logs
  | last look one => exact look.logs.behind (helement _ _ _ one)
  | next look one _ ih => exact (look.logs.behind (helement _ _ _ one)).behind ih

theorem evaluating_elements (helement : Evaluating ctx i [] element) (least : Nat) (idle : Error)
    (count : Option Nat) :
    Evaluating ctx i [] (elements ctx least idle element count) :=
  fun _ _ _ hrun => (rounds_elements hrun).logs helement

end

/-- An element evaluates nothing, unless it is of a custom type. -/
theorem evaluating_element {type : ElementType} {length : Option Length}
    (hcustom : (Decl.value type length).customUse = none) (width : Nat) :
    Evaluating ctx i [] (element ctx head width type) := by
  cases type with
  | fixed type =>
    refine (evaluating_onStream _).behind fun n => ?_
    cases type.ofNumber n with
    | ok v => exact .pure v
    | error e => exact .raise e
  | bit _ => exact (evaluating_onStream _).behind fun _ => .pure _
  | text => exact (evaluating_onStream _).map _
  | custom use extra => cases hcustom

theorem evaluating_byteArray (type : ElementType) (count : Option Nat) :
    Evaluating ctx i [] (byteArray ctx type count) := by
  cases count with
  | some n => exact evaluating_onStream _
  | none =>
    have hbytes : Evaluating ctx i [] (toEnd 8 ctx.options.bitOrder (.idleElement type.name)
        (Step.next <$> onStream (Reader.Checked.readByte ctx.options.bitOrder))) :=
      evaluating_elements ((evaluating_onStream _).map _) 8 _ none
    exact hbytes.map Prod.fst

/-- What is read of a value evaluates nothing behind its parameter and its length. -/
theorem evaluating_value {type : ElementType} {length : Option Length}
    (hcustom : (Decl.value type length).customUse = none) :
    Evaluating ctx head.index (Decl.value type length).exprs (value ctx head type length) := by
  refine .behind_consulting (consulting_bitWidth hcustom) fun width => ?_
  cases length with
  | none => exact evaluating_element hcustom width
  | some length =>
    refine (consulting_arrayCount length).evaluating.behind fun count => ?_
    dsimp only
    split
    · exact (evaluating_byteArray type count).map _
    · refine (evaluating_elements ((evaluating_element hcustom width).map _) _ _ count).behind
        fun _ => .pure _

/-- A declaration that is read evaluates its expressions. -/
theorem evaluating_item {decl : Decl} (hcustom : decl.customUse = none) :
    Evaluating ctx head.index decl.exprs (item ctx head decl) := by
  cases decl with
  | value type length =>
    refine (evaluating_value hcustom).behind fun v => ?_
    dsimp only
    split
    · exact (evaluating_register _ _).behind fun _ =>
        (evaluating_note_node _ _).behind fun _ => .pure _
    · exact (evaluating_note_node _ _).behind fun _ => .pure _
  | computed a =>
    refine .behind_consulting (consulting_amount a) fun n => ?_
    exact (evaluating_register _ _).behind fun _ =>
      (evaluating_note_node _ _).behind fun _ => .pure _
  | align a =>
    exact .behind_consulting (consulting_alignment a) fun n =>
      (evaluating_onStream _).behind fun _ => .pure _
  | skip a =>
    exact .behind_consulting (consulting_skipCount a) fun n =>
      (evaluating_onStream _).behind fun _ => .pure _
  | reset => exact (evaluating_onStream _).behind fun _ => .pure _

end Decode.Watched

/-! ## Writing -/

namespace Encode.Watched

theorem evaluating_onWriter (w : CheckedM Writer α) : Evaluating ctx i [] (onWriter w) :=
  evaluating_onStream _

theorem consulting_remaining : Consulting ctx i [] remaining := by
  intro s x s' hrun
  cases hrun
  exact ⟨.of_same rfl rfl, rfl⟩

/-- Items are no part of what expressions are evaluated in. -/
theorem consulting_leave (items : List Item) : Consulting ctx i [] (leave items) := by
  intro s x s' hrun
  cases hrun
  exact ⟨.of_same rfl rfl, rfl⟩

theorem consulting_nextValue (declaration : String) :
    Consulting ctx i [] (nextValue declaration) := by
  refine consulting_remaining.behind fun items => ?_
  rcases items with _ | ⟨_ | _, rest⟩
  · exact .raise _
  · exact (consulting_leave rest).behind fun _ => .pure _
  · exact (consulting_leave rest).behind fun _ => .raise _

theorem consulting_toldCount : Consulting ctx i [] toldCount := by
  refine consulting_remaining.behind fun items => ?_
  rcases items with _ | ⟨_ | n, rest⟩
  · exact .pure _
  · exact .pure _
  · exact (consulting_leave rest).behind fun _ => .pure _

theorem evaluating_checkedNormalize (type : ElementType) (width : Nat) (v : Value) :
    Evaluating (δ := δ) ctx i [] (type.checkedNormalize width v) := by
  have hnormal : Evaluating (δ := δ) ctx i [] (pure (type.normalize width v)) := .pure _
  cases type with
  | bit w =>
    unfold ElementType.checkedNormalize
    cases v.asInt with
    | none => exact .pure _
    | some n =>
      have hshift : Evaluating (δ := δ) ctx i [] (checkShift width 64) := by
        unfold checkShift
        split
        · exact .pure _
        · exact .fault _
      exact hshift.behind fun _ => .pure _
  | fixed _ | text | custom _ _ => exact hnormal

theorem evaluating_element {type : ElementType} {length : Option Length}
    (hcustom : (Decl.value type length).customUse = none) (width : Nat) (v : Value) :
    Evaluating ctx i [] (element ctx head width type v) := by
  have hscalar : Evaluating ctx i [] (scalar ctx head width type v) := by
    refine (evaluating_checkedNormalize type width v).behind fun normal => ?_
    cases normal with
    | none => exact .raise _
    | some v => exact (evaluating_onWriter _).behind fun _ => .pure _
  cases type with
  | custom use extra => cases hcustom
  | fixed _ | bit _ | text => exact hscalar

theorem evaluating_elements {type : ElementType} {length : Option Length}
    (hcustom : (Decl.value type length).customUse = none) (width : Nat) (vs : List Value) :
    Evaluating ctx i [] (elements ctx head width type vs) := by
  induction vs with
  | nil => exact .pure _
  | cons v vs ih => exact (evaluating_element hcustom width v).behind fun _ => ih

theorem evaluating_checkCount (declaration : String) (count : Option Nat) (supplied : Nat) :
    Evaluating ctx i [] (checkCount declaration count supplied) := by
  cases count with
  | none => exact .pure _
  | some n =>
    unfold checkCount
    dsimp only
    split
    · exact .pure _
    · exact .raise _

/-- A value that is written evaluates its width and then its length, before anything is written. -/
theorem evaluating_value {type : ElementType} {length : Option Length}
    (hcustom : (Decl.value type length).customUse = none) (v : Value) :
    Evaluating ctx head.index (Decl.value type length).exprs (value ctx head type length v) := by
  refine .behind_consulting (consulting_bitWidth hcustom) fun width => ?_
  cases length with
  | none =>
    refine (evaluating_element hcustom width v).behind fun written => ?_
    cases written with
    | some v => exact (evaluating_register _ _).behind fun _ => evaluating_note_node _ _
    | none => exact evaluating_note_node _ _
  | some length =>
    refine (consulting_arrayCount length).evaluating.behind fun count => ?_
    dsimp only
    split
    · exact (evaluating_checkCount _ _ _).behind fun _ =>
        (evaluating_onWriter _).behind fun _ => evaluating_note_node _ _
    · exact (evaluating_checkCount _ _ _).behind fun _ =>
        (evaluating_elements hcustom _ _).behind fun _ => evaluating_note_node _ _
    · exact .raise _

/-- A declaration that is written evaluates its expressions. -/
theorem evaluating_item {decl : Decl} (hcustom : decl.customUse = none) :
    Evaluating ctx head.index decl.exprs (item ctx head decl) := by
  cases decl with
  | value type length =>
    have hvalue : Evaluating ctx head.index ([] ++ (Decl.value type length).exprs)
        (item ctx head (.value type length)) :=
      .behind_consulting (consulting_nextValue _) fun v => evaluating_value hcustom v
    rwa [List.nil_append] at hvalue
  | computed a =>
    refine .behind_consulting (consulting_amount a) fun n => ?_
    exact (evaluating_register _ _).behind fun _ => evaluating_note_node _ _
  | align a =>
    exact .behind_consulting (consulting_alignment a) fun n => evaluating_onWriter _
  | skip a =>
    exact .behind_consulting (consulting_skipCount a) fun n => evaluating_onWriter _
  | reset => exact evaluating_onWriter _

end Encode.Watched

end RecordLayout
