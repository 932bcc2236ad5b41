import RecordLayout.Layout.Listing
import RecordLayout.Pass.Decode
import RecordLayout.Proofs.Behind.Shifting
import RecordLayout.Proofs.Bits.Restarted
import RecordLayout.Proofs.Pass.Parameters

/-!
# Passes further back

The read pass over a layout further back, in a stream of which some bytes are fetched already,
echoes the pass over the layout at the front of a stream: it gives the same fields with their names
further back, or fails where the other one fails. Its errors may differ, since they name
declarations by their indexes. The resolver must not mind the expression that a name occurs in.
-/

namespace RecordLayout

/-! ## Echoes -/

/-- What the first operation gives in a state, the second one gives changed in every state related
to it; where the first one fails, so does the second. -/
def Echoes {σ α β : Type} (R : σ → σ → Prop) (f : α → β) (m : EStateM Error σ α)
    (m' : EStateM Error σ β) : Prop :=
  ∀ s s', R s s' → match m s with
    | .ok x t => ∃ t', m' s' = .ok (f x) t' ∧ R t t'
    | .error _ _ => ∃ e t', m' s' = .error e t'

namespace Echoes

variable {σ α α' β β' : Type} {R : σ → σ → Prop}

theorem pure (f : α → β) (a : α) :
    Echoes R f (Pure.pure a : EStateM Error σ α) (Pure.pure (f a)) := fun _ s' h => ⟨s', rfl, h⟩

theorem pure_of_eq {f : α → β} {a : α} {b : β} (h : f a = b) :
    Echoes R f (Pure.pure a : EStateM Error σ α) (Pure.pure b) := by
  rw [← h]
  exact pure f a

theorem throw (f : α → β) (e e' : Error) :
    Echoes R f (MonadExcept.throw e : EStateM Error σ α) (MonadExcept.throw e') :=
  fun _ s' _ => ⟨e', s', rfl⟩

/-- The two operations succeed together or fail together. -/
theorem together {f : α → β} {m : EStateM Error σ α} {m' : EStateM Error σ β}
    (h : Echoes R f m m') {s s' : σ} (hs : R s s') :
    (∃ x t t', m s = .ok x t ∧ m' s' = .ok (f x) t' ∧ R t t') ∨
      ∃ e t e' t', m s = .error e t ∧ m' s' = .error e' t' := by
  have hm := h s s' hs
  cases hrun : m s with
  | ok x t =>
    rw [hrun] at hm
    obtain ⟨t', hrun', ht⟩ := hm
    exact .inl ⟨x, t, t', rfl, hrun', ht⟩
  | error e t =>
    rw [hrun] at hm
    obtain ⟨e', t', hrun'⟩ := hm
    exact .inr ⟨e, t, e', t', rfl, hrun'⟩

/-- The operations that follow have to correspond for results that do. -/
theorem bind {f : α → β} {g : α' → β'} {m : EStateM Error σ α} {m' : EStateM Error σ β}
    {u : α → EStateM Error σ α'} {u' : β → EStateM Error σ β'} (hm : Echoes R f m m')
    (hu : ∀ a, Echoes R g (u a) (u' (f a))) : Echoes R g (m >>= u) (m' >>= u') := by
  intro s s' h
  obtain ⟨a, t, t', hs, hs', ht⟩ | ⟨e, t, e', t', hs, hs'⟩ := hm.together h
  · rw [bind_of_ok hs, bind_of_ok hs']
    exact hu a t t' ht
  · rw [bind_of_error hs, bind_of_error hs']
    exact ⟨e', t', rfl⟩

theorem map {f : α → β} {g : α' → β'} {m : EStateM Error σ α} {m' : EStateM Error σ β}
    {u : α → α'} {u' : β → β'} (hm : Echoes R f m m') (hu : ∀ a, u' (f a) = g (u a)) :
    Echoes R g (u <$> m) (u' <$> m') := by
  rw [map_eq_pure_bind, map_eq_pure_bind]
  exact hm.bind fun a => pure_of_eq (hu a).symm

/-- An operation behind two that give the same. -/
theorem bind_same {g : α' → β'} {m m' : EStateM Error σ α} {u : α → EStateM Error σ α'}
    {u' : α → EStateM Error σ β'} (hm : Echoes R id m m') (hu : ∀ a, Echoes R g (u a) (u' a)) :
    Echoes R g (m >>= u) (m' >>= u') := hm.bind hu

/-- Results that are the same before they are changed need correspond only behind the change. -/
theorem map_same {g : α' → β'} {m m' : EStateM Error σ α} {u : α → α'} {u' : α → β'}
    (hm : Echoes R id m m') (hu : ∀ a, u' a = g (u a)) : Echoes R g (u <$> m) (u' <$> m') :=
  hm.map hu

/-- The second operation succeeds exactly where the first does. -/
theorem exists_of_ok {f : α → β} {m : EStateM Error σ α} {m' : EStateM Error σ β}
    (h : Echoes R f m m') {s s' t' : σ} (hs : R s s') {y : β} (hrun : m' s' = .ok y t') :
    ∃ x t, m s = .ok x t ∧ y = f x ∧ R t t' := by
  obtain ⟨x, t, u, hfirst, hrun', ht⟩ | ⟨e, t, e', u, hfirst, hrun'⟩ := h.together hs
  · cases hrun.symm.trans hrun'
    exact ⟨x, t, hfirst, rfl, ht⟩
  · cases hrun.symm.trans hrun'

end Echoes

/-! ## Expressions -/

/-- The values of external names, whatever expression they occur in. -/
def Resolver.ofMap (values : String → Option Int64) : Resolver := fun name _ => values name

namespace Expr

/-- What the evaluation of expressions further back finds is what is found at the front. -/
structure Env.Behind (k : Nat) (env env' : Env) : Prop where
  numbers : ∀ i, env'.numbers.get? (k + i) = env.numbers.get? i
  counter : env'.counter = env.counter
  external : ∀ root root' name,
    (env'.external root' name).toOption = (env.external root name).toOption

variable {k : Nat} {env env' : Env}

/-- An expression has the same value when its fields stand further back, if the numbers do too. -/
theorem toOption_evalIn_shift (h : env.Behind k env') (root root' e : Expr) :
    (evalIn env' root' (e.shift k)).toOption = (evalIn env root e).toOption := by
  have hbind : ∀ {α β : Type} (x : Except Error α) (f : α → Except Error β),
      (x >>= f).toOption = x.toOption.bind fun a => (f a).toOption := by
    intro α β x f
    cases x <;> rfl
  induction e with
  | const v => rfl
  | field info =>
    simp only [shift, evalIn, FieldInfo.shift, h.numbers]
  | external name => exact h.external root root' name
  | counter => rw [shift, evalIn, evalIn, h.counter]
  | unary op e ih =>
    rw [shift, evalIn, evalIn, hbind, hbind, ih]
  | binary op l r ihl ihr =>
    rw [shift, evalIn, evalIn, hbind, hbind, ihl]
    refine congrArg _ (funext fun a => ?_)
    rw [hbind, hbind, ihr]

/-- An expression has a value further back exactly where it has one at the front, and the same. -/
theorem toOption_eval_shift (h : env.Behind k env') (e : Expr) :
    ((e.shift k).eval env').toOption = (e.eval env).toOption := toOption_evalIn_shift h _ _ e

end Expr

/-! ## Parameters -/

namespace Decode

/-- The second pass is further back, in a stream of which this many bytes were fetched in front. -/
structure Behind (k front : Nat) (s s' : PassState Reader) : Prop where
  stream : Reader.Restarted front s.stream s'.stream
  numbers : ∀ i, s'.numbers.get? (k + i) = s.numbers.get? i

variable {α β : Type} {k front : Nat} {ctx : PassContext} {values : Option (String → Option Int64)}

/-- Both passes evaluate their expressions in the same, but for the places of the fields. -/
theorem Behind.env (hctx : ctx.resolver = values.map Resolver.ofMap) {s s' : PassState Reader}
    (h : Behind k front s s') : (PassM.env ctx s).Behind k (PassM.env ctx s') where
  numbers := h.numbers
  counter := congrArg Int64.ofNat h.stream.byteCount
  external root root' name := by
    simp only [PassM.env, Expr.Env.external, hctx]
    cases values with
    | none => rfl
    | some values => simp only [Option.map_some, Resolver.ofMap]

/-- An operation of the stream alone. -/
theorem echoes_onStream {m : ReadM α} (h : Reader.Restarts front m) :
    Echoes (Behind k front) id (PassM.onStream m) (PassM.onStream m) := by
  intro s s' hs
  have hm := h s.stream s'.stream hs.stream
  simp only [PassM.onStream]
  cases hrun : m s.stream with
  | ok x t =>
    rw [hrun] at hm
    obtain ⟨t', hrun', ht⟩ := hm
    rw [hrun']
    exact ⟨_, rfl, ht, hs.numbers⟩
  | error e t =>
    rw [hrun] at hm
    obtain ⟨t', hrun'⟩ := hm.resolve_left id
    rw [hrun']
    exact ⟨e, _, rfl⟩

/-- A declaration further back has its value further back. -/
theorem echoes_register (info : Option FieldInfo) (v : Value) :
    Echoes (Behind k front) id (PassM.register info v)
      (PassM.register (info.map (FieldInfo.shift k)) (v.shift k)) := by
  intro s s' hs
  unfold PassM.register
  rw [Value.asInt_shift]
  cases info with
  | none => exact ⟨s', rfl, hs⟩
  | some info =>
    cases v.asInt with
    | none => exact ⟨s', rfl, hs⟩
    | some n =>
      refine ⟨_, rfl, hs.stream, fun i => ?_⟩
      show (s'.numbers.put (k + info.index) n).get? (k + i) = (s.numbers.put info.index n).get? i
      rw [Numbers.get?_put, Numbers.get?_put, hs.numbers]
      simp only [Nat.add_left_cancel_iff]

theorem echoes_nonNegative (quantity : Quantity) (v : Int64) :
    Echoes (Behind k front) id (PassM.nonNegative ctx quantity v)
      (PassM.nonNegative ctx quantity v) := by
  unfold PassM.nonNegative
  split
  · exact .pure _ _
  · split
    · exact .pure _ _
    · exact .throw _ _ _

section

variable (hctx : ctx.resolver = values.map Resolver.ofMap)
include hctx

/-- Only whether there is a value is compared, as an error may name the place of a field. -/
theorem echoes_eval (e : Expr) :
    Echoes (Behind k front) id (PassM.eval ctx e) (PassM.eval ctx (e.shift k)) := by
  intro s s' hs
  have hvalue := Expr.toOption_eval_shift (hs.env hctx) e
  simp only [PassM.eval]
  cases hrun : e.eval (PassM.env ctx s) with
  | ok v =>
    cases hrun' : (e.shift k).eval (PassM.env ctx s') with
    | ok v' =>
      rw [hrun, hrun'] at hvalue
      cases hvalue
      exact ⟨_, rfl, hs.stream, hs.numbers⟩
    | error e' =>
      rw [hrun, hrun'] at hvalue
      cases hvalue
  | error fault =>
    cases hrun' : (e.shift k).eval (PassM.env ctx s') with
    | ok v' =>
      rw [hrun, hrun'] at hvalue
      cases hvalue
    | error e' => exact ⟨e', _, rfl⟩

theorem echoes_amount (a : Amount) :
    Echoes (Behind k front) id (PassM.amount ctx a) (PassM.amount ctx (a.shift k)) := by
  cases a with
  | const n => exact .pure _ _
  | computed e => exact echoes_eval hctx e

theorem echoes_arrayCount (l : Length) :
    Echoes (Behind k front) id (PassM.arrayCount ctx l) (PassM.arrayCount ctx (l.shift k)) := by
  cases l with
  | const n => exact .pure _ _
  | computed e =>
    exact (echoes_eval hctx e).bind_same fun v => (echoes_nonNegative _ v).map_same fun _ => rfl
  | unbounded => exact .pure _ _

theorem echoes_bitWidth (type : ElementType) :
    Echoes (Behind k front) id (PassM.bitWidth ctx type) (PassM.bitWidth ctx (type.shift k)) := by
  cases type with
  | bit width =>
    refine (echoes_amount hctx width).bind_same fun w => ?_
    split
    · exact .pure _ _
    · exact .throw _ _ _
  | fixed _ | text | custom _ _ => exact .pure _ _

theorem echoes_alignment (a : Amount) :
    Echoes (Behind k front) id (PassM.alignment ctx a) (PassM.alignment ctx (a.shift k)) := by
  refine (echoes_amount hctx a).bind_same fun n => ?_
  split
  · exact Echoes.bind_same (.throw _ _ _) fun _ => .pure _ _
  · exact .pure _ _

theorem echoes_skipCount (a : Amount) :
    Echoes (Behind k front) id (PassM.skipCount ctx a) (PassM.skipCount ctx (a.shift k)) :=
  (echoes_amount hctx a).bind_same fun n => echoes_nonNegative _ n

end

/-! ## Repetitions -/

/-- The step with its element changed. -/
def Step.map (f : α → β) : Step α → Step β
  | .next x => .next (f x)
  | .last x => .last (x.map f)

/-- What a repetition gives, with its elements changed. -/
abbrev mapFound (f : α → β) : List α × Flow → List β × Flow := Prod.map (List.map f) id

/-- As many elements are read, and each of them corresponds. -/
theorem echoes_times {f : α → β} {element : PassM Reader (Step α)}
    {element' : PassM Reader (Step β)} (h : Echoes (Behind k front) (Step.map f) element element')
    (count : Nat) :
    Echoes (Behind k front) (mapFound f) (times element count) (times element' count) := by
  induction count with
  | zero => exact .pure (mapFound f) ([], .goOn)
  | succ count ih =>
    refine h.bind fun step => ?_
    cases step with
    | last x =>
      cases x with
      | none => exact .pure (mapFound f) ([], .stop)
      | some x => exact .pure (mapFound f) ([x], .stop)
    | next x => exact ih.bind fun found => .pure (mapFound f) (x :: found.1, found.2)

/-- The induction is on the bits that remain, which are as many in both streams. -/
theorem echoes_toEnd {f : α → β} {element : PassM Reader (Step α)}
    {element' : PassM Reader (Step β)}
    (h : Echoes (Behind k front) (Step.map f) element element') (least : Nat) (order : BitOrder)
    (idle idle' : Error) :
    Echoes (Behind k front) (mapFound f) (toEnd least order idle element)
      (toEnd least order idle' element') := by
  intro s s' hs
  induction hremaining : s.stream.remaining using Nat.strongRecOn generalizing s s' with
  | ind n ih =>
  rw [toEnd, toEnd]
  obtain ⟨atEnd, s₁, s₁', hend, hend', hs₁⟩ | ⟨e, s₁, e', s₁', hend, hend'⟩ :=
    (echoes_onStream (Reader.restarts_atEndFor least order)).together hs
  case inr =>
    rw [hend, hend']
    exact ⟨e', s₁', rfl⟩
  rw [hend, hend']
  cases atEnd with
  | true => exact ⟨s₁', rfl, hs₁⟩
  | false =>
    dsimp only [id]
    obtain ⟨step, s₂, s₂', hfound, hfound', hs₂⟩ | ⟨e, s₂, e', s₂', hfound, hfound'⟩ :=
      h.together hs₁
    case inr =>
      rw [hfound, hfound']
      exact ⟨e', s₂', rfl⟩
    rw [hfound, hfound']
    cases step with
    | last x =>
      refine ⟨s₂', ?_, hs₂⟩
      cases x <;> rfl
    | next x =>
      dsimp only [Step.map]
      -- Both loops take the element for idle or neither does, since they count the same bits.
      rw [hs₂.stream.remaining, hs.stream.remaining]
      by_cases hless : s₂.stream.remaining < s.stream.remaining
      · have hlater := ih _ (hremaining ▸ hless) s₂ s₂' hs₂ rfl
        rw [if_pos hless, if_pos hless]
        cases hrest : toEnd least order idle element s₂ with
        | ok found s₃ =>
          rw [hrest] at hlater
          obtain ⟨s₃', hrest', hs₃⟩ := hlater
          rw [hrest']
          exact ⟨s₃', rfl, hs₃⟩
        | error e s₃ =>
          rw [hrest] at hlater
          obtain ⟨e', t', hrest'⟩ := hlater
          rw [hrest']
          exact ⟨e', t', rfl⟩
      · rw [if_neg hless, if_neg hless]
        exact ⟨idle', s₂', rfl⟩

theorem echoes_elements {f : α → β} {element : PassM Reader (Step α)}
    {element' : PassM Reader (Step β)} (h : Echoes (Behind k front) (Step.map f) element element')
    (least : Nat) (idle idle' : Error) (count : Option Nat) :
    Echoes (Behind k front) (mapFound f) (elements ctx least idle element count)
      (elements ctx least idle' element' count) := by
  cases count with
  | some n => exact echoes_times h n
  | none => exact echoes_toEnd h least _ idle idle'

/-! ## Values -/

variable {head : Header}

/-- An element of a built-in type does not depend on any field. -/
theorem echoes_element (width : Nat) {type : ElementType}
    (hcustom : ∀ use extra, type ≠ .custom use extra) :
    Echoes (Behind k front) (Value.shift k) (element ctx head width type)
      (element ctx (head.shift k) width (type.shift k)) := by
  cases type with
  | fixed type =>
    refine (echoes_onStream (Reader.restarts_parts.readNumber _ _ _)).bind_same fun n => ?_
    cases hv : type.ofNumber n with
    | ok v => exact .pure_of_eq (FixedType.shift_ofNumber hv)
    | error e => exact .throw _ _ _
  | bit _ =>
    exact (echoes_onStream (Reader.restarts_parts.readBits _ _)).bind_same fun n =>
      .pure (Value.shift k) (.bit n.toUInt8)
  | text => exact (echoes_onStream (Reader.restarts_parts.readText _)).map_same fun _ => rfl
  | custom use extra => exact absurd rfl (hcustom use extra)

theorem echoes_byteArray (type : ElementType) (count : Option Nat) :
    Echoes (Behind k front) id (byteArray ctx type count) (byteArray ctx (type.shift k) count) := by
  cases count with
  | some n => exact echoes_onStream (Reader.restarts_parts.readBytes _ _)
  | none =>
    have hbyte : Echoes (Behind k front) (Step.map id)
        (Step.next <$> PassM.onStream (Reader.readByte ctx.options.bitOrder))
        (Step.next <$> PassM.onStream (Reader.readByte ctx.options.bitOrder)) :=
      (echoes_onStream (Reader.restarts_parts.readByte _)).map_same fun _ => rfl
    exact (echoes_toEnd hbyte _ _ _ _).map fun found => List.map_id found.1

/-- A value of the layout behind is the one of the layout alone. -/
theorem echoes_value (hctx : ctx.resolver = values.map Resolver.ofMap) {type : ElementType}
    (hcustom : ∀ use extra, type ≠ .custom use extra) (length : Option Length) :
    Echoes (Behind k front) (Value.shift k) (value ctx head type length)
      (value ctx (head.shift k) (type.shift k) (length.map (Length.shift k))) := by
  refine (echoes_bitWidth hctx type).bind_same fun width => ?_
  cases length with
  | none => exact echoes_element width hcustom
  | some length =>
    refine (echoes_arrayCount hctx length).bind_same fun count => ?_
    rw [ElementType.isByte_shift]
    split
    · exact (echoes_byteArray type count).map_same fun _ => rfl
    · rw [ElementType.leastBits_shift]
      have hnext : Echoes (Behind k front) (Step.map (Value.shift k))
          (Step.next <$> element ctx head width type)
          (Step.next <$> element ctx (head.shift k) width (type.shift k)) :=
        (echoes_element width hcustom).map fun _ => rfl
      exact (echoes_elements hnext _ _ _ count).bind fun found =>
        .pure_of_eq (Value.shift_list k found.1)

/-! ## Layouts -/

/-- A declaration of the layout behind gives the field of the layout alone, further back. -/
theorem echoes_item (hctx : ctx.resolver = values.map Resolver.ofMap) {decl : Decl}
    (hcustom : decl.customUse = none) :
    Echoes (Behind k front) (Option.map (Field.shift k)) (item ctx head decl)
      (item ctx (head.shift k) (decl.shift k)) := by
  cases decl with
  | value type length =>
    have htype : ∀ use extra, type ≠ .custom use extra := by
      rintro use extra rfl
      cases hcustom
    refine (echoes_value hctx htype length).bind fun v => ?_
    dsimp only
    rw [Option.isNone_map]
    split
    · exact (echoes_register head.info v).bind_same fun _ =>
        .pure (Option.map (Field.shift k)) (some _)
    · exact Echoes.bind_same (.pure id ()) fun _ => .pure (Option.map (Field.shift k)) (some _)
  | computed amount =>
    refine (echoes_amount hctx amount).bind_same fun n => ?_
    exact (echoes_register head.info (.long n)).bind_same fun _ =>
      .pure (Option.map (Field.shift k)) (some (.new head.info (.long n)))
  | align a =>
    exact (echoes_alignment hctx a).bind_same fun n =>
      (echoes_onStream (Reader.restarts_parts.align n)).bind_same fun _ => .pure _ none
  | skip a =>
    exact (echoes_skipCount hctx a).bind_same fun n =>
      (echoes_onStream (Reader.restarts_parts.skipBytes n)).bind_same fun _ => .pure _ none
  | reset =>
    exact (echoes_onStream Reader.restarts_parts.reset).bind_same fun _ => .pure _ none

/-- What a layout gives, further back. -/
abbrev shiftFound (k : Nat) : List Field × Flow → List Field × Flow := mapFound (Field.shift k)

theorem step_ofBody_shift (found : List Field × Flow) :
    Step.ofBody (shiftFound k found) = (Step.ofBody found).map (Value.shift k) := by
  rcases found with ⟨fields, flow⟩
  cases flow with
  | goOn => exact congrArg Step.next (Value.shift_struct k fields).symm
  | stop =>
    cases fields with
    | nil => rfl
    | cons f fields => exact congrArg (Step.last ∘ some) (Value.shift_struct k (f :: fields)).symm

/-- A structure or an array of them is read behind another layout as it is alone. -/
theorem echoes_group (hctx : ctx.resolver = values.map Resolver.ofMap)
    {body body' : PassM Reader (List Field × Flow)}
    (h : Echoes (Behind k front) (shiftFound k) body body') (length : Option Length)
    (certain : Nat) :
    Echoes (Behind k front) (Prod.map (Value.shift k) id) (group ctx head length certain body)
      (group ctx (head.shift k) (length.map (Length.shift k)) certain body') := by
  cases length with
  | none =>
    refine h.bind fun found => ?_
    rcases found with ⟨fields, flow⟩
    exact .pure_of_eq (congrArg (·, flow) (Value.shift_struct k fields))
  | some length =>
    refine (echoes_arrayCount hctx length).bind_same fun count => ?_
    have hone : Echoes (Behind k front) (Step.map (Value.shift k)) (Step.ofBody <$> body)
        (Step.ofBody <$> body') := h.map step_ofBody_shift
    refine (echoes_elements hone _ _ _ count).bind fun found => ?_
    rcases found with ⟨items, flow⟩
    exact .pure_of_eq (congrArg (·, flow) (Value.shift_list k items))

/-- The read pass over a layout further back. The induction is on the layout. -/
theorem echoes_fields (hctx : ctx.resolver = values.map Resolver.ofMap)
    (hstrict : ctx.options.lenient = false) {l : Layout} (hcustom : l.customUses = []) :
    Echoes (Behind k front) (shiftFound k) (fields ctx l) (fields ctx (l.shift k)) := by
  have hends : ∀ holds, endsBefore ctx holds = pure false := by
    intro holds
    rw [endsBefore, hstrict]
    rfl
  induction l with
  | done => exact .pure (shiftFound k) ([], .goOn)
  | item head decl rest ih =>
    rw [Layout.customUses, List.append_eq_nil_iff, Option.toList_eq_nil_iff] at hcustom
    simp only [Layout.shift, fields, hends, pure_bind]
    refine (echoes_item hctx hcustom.1).bind fun node => (ih hcustom.2).bind fun found => ?_
    rcases found with ⟨more, flow⟩
    cases node with
    | none => exact .pure (shiftFound k) (more, flow)
    | some f => exact .pure (shiftFound k) (f :: more, flow)
  | group head length body closing rest ihbody ihrest =>
    rw [Layout.customUses, List.append_eq_nil_iff] at hcustom
    simp only [Layout.shift, fields, hends, pure_bind, Layout.certainBits_shift]
    refine (echoes_group hctx (ihbody hcustom.1) length _).bind fun found => ?_
    rcases found with ⟨v, flow⟩
    cases flow with
    | stop => exact .pure (shiftFound k) ([.new head.info v], .stop)
    | goOn =>
      refine (ihrest hcustom.2).bind fun found => ?_
      exact .pure (shiftFound k) (.new head.info v :: found.1, found.2)

end Decode

end RecordLayout
