import RecordLayout.Layout.Listing
import RecordLayout.Proofs.Pass.Parameters
import RecordLayout.Proofs.Watched.Encode

/-!
# The nodes of a write

A write that succeeds goes through its layout in order. A declaration that takes a value takes the
next item, evaluates its parameters, and gets its node: the value in the form of the type, at the width
that has just been evaluated, or an array or a custom value as it is. A computed declaration takes no
item and gets the value of its expression. An array of structures takes as many structures as its
length and the items say.

`Layout.Filled` says this of the items and the past of a write. `Adds` follows both through the
operations that succeed.
-/

namespace RecordLayout

/-! ## Declarations -/

/-- Expressions of the declaration with an index are evaluated, one after the other in the same. -/
def evaluatedIn (index : Nat) (env : Expr.Env) (es : List Expr) : List Event :=
  es.map fun e => .evaluated index e env

namespace ElementType

/-- The expression of the bit width. -/
def widthExpr? : ElementType → Option Expr
  | bit width => width.expr?
  | _ => none

/-- What the type adds to the past for one element: a custom type evaluates its parameter. -/
def Consults (index : Nat) (events : List Event) : ElementType → Prop
  | custom _ extra => ∃ env, events = evaluatedIn index env (extra.bind Amount.expr?).toList
  | _ => events = []

/-- The node that the type gives for a supplied value at a bit width: the value in its form, or for a
custom type the value itself. -/
def Gives (width : Nat) (supplied node : Value) : ElementType → Prop
  | custom _ _ => node = supplied
  | type => type.normalize width supplied = some node

end ElementType

/-- The number of elements of an array. -/
def Value.elementCount? : Value → Option Nat
  | bytes bs => some bs.length
  | list items => some items.length
  | _ => none

/-- The items that the declaration with an index takes, and what it adds to the past. -/
inductive Decl.Filled (ctx : PassContext) (index : Nat) : Decl → List Item → List Event → Prop
  | single {type : ElementType} {env : Expr.Env} {width : Nat} {supplied v : Value}
      {extra : List Event} (wide : type.width env = .ok width) (consults : type.Consults index extra)
      (form : type.Gives width supplied v) :
      Decl.Filled ctx index (.value type none) [.value supplied]
        (evaluatedIn index env type.widthExpr?.toList ++ (extra ++ [.node index v]))
  | array {type : ElementType} {length : Length} {env env' : Expr.Env} {width : Nat}
      {count : Option Nat} {supplied : Value} {extras : List (List Event)}
      (wide : type.width env = .ok width) (counted : ctx.count env' length = .ok count)
      (sized : ∀ n ∈ count, supplied.elementCount? = some n)
      (consults : ∀ extra ∈ extras, type.Consults index extra) :
      Decl.Filled ctx index (.value type (some length)) [.value supplied]
        (evaluatedIn index env type.widthExpr?.toList ++
          (evaluatedIn index env' length.expr?.toList ++ (extras.flatten ++ [.node index supplied])))
  | computed {a : Amount} {env : Expr.Env} {n : Int64} (value : a.value env = .ok n) :
      Decl.Filled ctx index (.computed a) []
        (evaluatedIn index env a.expr?.toList ++ [.node index (.long n)])
  | align {a : Amount} {env : Expr.Env} :
      Decl.Filled ctx index (.align a) [] (evaluatedIn index env a.expr?.toList)
  | skip {a : Amount} {env : Expr.Env} :
      Decl.Filled ctx index (.skip a) [] (evaluatedIn index env a.expr?.toList)
  | reset : Decl.Filled ctx index .reset [] []

/-! ## Layouts -/

/-- How many structures are written: as many as the length and the items say, if they say it, or as
there are. Under lenient options fewer than the length says end the record. -/
inductive Planned (lenient : Bool) :
    (count told : Option Nat) → (n : Nat) → (flow behind : Flow) → Prop
  | agreed {n : Nat} {flow : Flow} : Planned lenient (some n) (some n) n flow flow
  | short {m n : Nat} {flow : Flow} (allowed : lenient = true) (less : n < m) :
      Planned lenient (some m) (some n) n flow .stop
  | counted {n : Nat} {flow : Flow} : Planned lenient (some n) none n flow flow
  | told {n : Nat} {flow : Flow} : Planned lenient none (some n) n flow flow
  | free {n : Nat} {flow : Flow} : Planned lenient none none n flow flow

mutual

/-- The items that a layout takes, what it adds to the past, and whether the record goes on. -/
inductive Layout.Filled (ctx : PassContext) : Layout → List Item → List Event → Flow → Prop
  | done : Layout.Filled ctx .done [] [] .goOn
  | cut {head : Header} {decl : Decl} {rest : Layout} (lenient : ctx.options.lenient = true)
      (holds : decl.kind.holdsValue = true) :
      Layout.Filled ctx (.item head decl rest) [] [] .stop
  | item {head : Header} {decl : Decl} {rest : Layout} {items items' : List Item}
      {events events' : List Event} {flow : Flow} (first : decl.Filled ctx head.index items events)
      (later : Layout.Filled ctx rest items' events' flow) :
      Layout.Filled ctx (.item head decl rest) (items ++ items') (events ++ events') flow
  | cutGroup {head : Header} {length : Option Length} {body rest : Layout} {closing : Position}
      (lenient : ctx.options.lenient = true) (holds : body.holdsValue = true) :
      Layout.Filled ctx (.group head length body closing rest) [] [] .stop
  | lastGroup {head : Header} {length : Option Length} {body rest : Layout} {closing : Position}
      {items : List Item} {events : List Event}
      (last : Group.Filled ctx head.index body length items events .stop) :
      Layout.Filled ctx (.group head length body closing rest) items events .stop
  | group {head : Header} {length : Option Length} {body rest : Layout} {closing : Position}
      {items items' : List Item} {events events' : List Event} {flow : Flow}
      (first : Group.Filled ctx head.index body length items events .goOn)
      (later : Layout.Filled ctx rest items' events' flow) :
      Layout.Filled ctx (.group head length body closing rest) (items ++ items') (events ++ events')
        flow

/-- The same for a structure, or an array of them with an index, of a body. -/
inductive Group.Filled (ctx : PassContext) :
    (index : Nat) → Layout → Option Length → List Item → List Event → Flow → Prop
  | struct {index : Nat} {body : Layout} {items : List Item} {events : List Event} {flow : Flow}
      (one : Layout.Filled ctx body items events flow) :
      Group.Filled ctx index body none items events flow
  | array {index : Nat} {body : Layout} {length : Length} {env : Expr.Env} {count told : Option Nat}
      {n : Nat} {items : List Item} {events : List Event} {flow behind : Flow}
      (counted : ctx.count env length = .ok count)
      (planned : Planned ctx.options.lenient count told n flow behind)
      (all : Elements.Filled ctx index body n items events flow) :
      Group.Filled ctx index body (some length) ((told.map Item.elements).toList ++ items)
        (evaluatedIn index env length.expr?.toList ++ events) behind

/-- The same for a number of elements, unless the record ends before. -/
inductive Elements.Filled (ctx : PassContext) :
    (index : Nat) → Layout → (n : Nat) → List Item → List Event → Flow → Prop
  | done {index : Nat} {body : Layout} : Elements.Filled ctx index body 0 [] [] .goOn
  | last {index : Nat} {body : Layout} {n : Nat} {items : List Item} {events : List Event}
      (one : Layout.Filled ctx body items events .stop) :
      Elements.Filled ctx index body (n + 1) items (.element index :: events) .stop
  | next {index : Nat} {body : Layout} {n : Nat} {items items' : List Item}
      {events events' : List Event} {flow : Flow} (one : Layout.Filled ctx body items events .goOn)
      (more : Elements.Filled ctx index body n items' events' flow) :
      Elements.Filled ctx index body (n + 1) (items ++ items')
        (.element index :: (events ++ events')) flow

end

namespace Encode.Watched

open PassM.Watched

/-! ## Operations -/

/-- Where it succeeds, the operation takes items and adds events to the past that are so. -/
def Adds {α : Type} (R : α → List Item → List Event → Prop) (w : WatchedM Feed α) : Prop :=
  ∀ s x s', w s = .ok x s' → ∃ items events,
    s.pass.stream.items = items ++ s'.pass.stream.items ∧
      s'.past = events.reverse ++ s.past ∧ R x items events

/-- Where it succeeds, the operation takes no item and adds nothing to the past, and its result is so. -/
def Plain {α : Type} (P : α → Prop) (w : WatchedM Feed α) : Prop :=
  Adds (fun a items events => items = [] ∧ events = [] ∧ P a) w

namespace Adds

variable {α β : Type} {R : α → List Item → List Event → Prop}
  {T : β → List Item → List Event → Prop}

theorem pure {a : α} (h : R a [] []) : Adds R (Pure.pure a) := by
  intro s x s' hrun
  cases hrun
  exact ⟨[], [], rfl, rfl, h⟩

theorem raise {e : Error} : Adds R (RecordLayout.raise e) := by
  intro s x s' hrun
  cases hrun

/-- The second operation is seen along with what the first one took and added. -/
theorem bind {w : WatchedM Feed α} {v : α → WatchedM Feed β} (hw : Adds R w)
    (hv : ∀ a items events, R a items events →
      Adds (fun b items' events' => T b (items ++ items') (events ++ events')) (v a)) :
    Adds T (w >>= v) := by
  intro s x s' hrun
  obtain ⟨a, s₁, hfirst, hsecond⟩ := bind_eq_ok.mp hrun
  obtain ⟨items, events, hitems, hpast, ha⟩ := hw s a s₁ hfirst
  obtain ⟨items', events', hitems', hpast', hx⟩ := hv a items events ha s₁ x s' hsecond
  refine ⟨items ++ items', events ++ events', ?_, ?_, hx⟩
  · rw [hitems, hitems', List.append_assoc]
  · rw [hpast', hpast, List.reverse_append, List.append_assoc]

/-- A result that is changed, with the same items taken and the same events added. -/
theorem map {w : WatchedM Feed α} {f : α → β}
    (hw : Adds (fun a items events => T (f a) items events) w) : Adds T (f <$> w) := by
  intro s x s' hrun
  obtain ⟨a, ha, rfl⟩ := map_eq_ok.mp hrun
  exact hw s a s' ha

theorem imp {R' : α → List Item → List Event → Prop} {w : WatchedM Feed α} (hw : Adds R w)
    (h : ∀ a items events, R a items events → R' a items events) : Adds R' w := by
  intro s x s' hrun
  obtain ⟨items, events, hitems, hpast, ha⟩ := hw s x s' hrun
  exact ⟨items, events, hitems, hpast, h x items events ha⟩

end Adds

namespace Plain

variable {α β : Type} {P : α → Prop}

theorem pure {a : α} (h : P a) : Plain P (Pure.pure a) := Adds.pure ⟨rfl, rfl, h⟩

/-- What follows a plain operation takes and adds everything. -/
theorem bind {w : WatchedM Feed α} {v : α → WatchedM Feed β}
    {T : β → List Item → List Event → Prop} (hw : Plain P w) (hv : ∀ a, P a → Adds T (v a)) :
    Adds T (w >>= v) := by
  refine Adds.bind hw fun a items events h => ?_
  obtain ⟨rfl, rfl, ha⟩ := h
  exact hv a ha

/-- What a plain operation follows has taken and added everything. -/
theorem behind {w : WatchedM Feed α} {R : List Item → List Event → Prop}
    {items : List Item} {events : List Event} (hw : Plain P w) (h : R items events) :
    Adds (fun _ items' events' => R (items ++ items') (events ++ events')) w := by
  refine Adds.imp hw fun a items' events' hplain => ?_
  obtain ⟨rfl, rfl, -⟩ := hplain
  rwa [List.append_nil, List.append_nil]

end Plain

variable {α : Type} {ctx : PassContext} {head : Header}

theorem adds_note (event : Event) :
    Adds (fun _ items events => items = [] ∧ events = [event]) (note event) := by
  intro s x s' hrun
  cases hrun
  exact ⟨[], [event], rfl, rfl, rfl, rfl⟩

theorem plain_onWriter (w : CheckedM Writer α) : Plain (fun _ => True) (onWriter w) := by
  intro s x s' hrun
  simp only [onWriter, onStream] at hrun
  cases hw : w s.pass.stream.writer with
  | ok y writer =>
    rw [hw] at hrun
    cases hrun
    exact ⟨[], [], rfl, rfl, rfl, rfl, trivial⟩
  | error e writer =>
    rw [hw] at hrun
    cases hrun

theorem plain_register (info : Option FieldInfo) (v : Value) :
    Plain (fun _ => True) (register info v) := by
  unfold register
  split
  · intro s x s' hrun
    cases hrun
    exact ⟨[], [], rfl, rfl, rfl, rfl, trivial⟩
  · exact .pure trivial

/-! ## Parameters -/

/-- An expression adds its evaluation. -/
theorem adds_eval (e : Expr) :
    Adds (fun v items events => items = [] ∧
      ∃ env, e.eval env = .ok v ∧ events = [.evaluated head.index e env]) (eval ctx head e) := by
  intro s x s' hrun
  simp only [eval] at hrun
  cases hvalue : e.eval (PassM.env ctx s.pass) with
  | error cause =>
    rw [hvalue] at hrun
    cases hrun
  | ok v =>
    rw [hvalue] at hrun
    cases hrun
    exact ⟨[], [_], rfl, rfl, rfl, _, hvalue, rfl⟩

/-- A result that is there without an evaluation is there whatever it would be evaluated in. -/
theorem adds_constant {T : α → Expr.Env → Prop} {a : α} (h : ∀ env, T a env) :
    Adds (fun x items events => items = [] ∧ ∃ env, T x env ∧ events = [])
      (pure a : WatchedM Feed α) :=
  .pure ⟨rfl, ⟨.empty, 0, none⟩, h _, rfl⟩

theorem adds_amount (a : Amount) :
    Adds (fun n items events => items = [] ∧
      ∃ env, a.value env = .ok n ∧ events = evaluatedIn head.index env a.expr?.toList)
      (amount ctx head a) := by
  cases a with
  | const n => exact adds_constant fun _ => rfl
  | computed e => exact adds_eval e

theorem plain_nonNegative (quantity : Quantity) (v : Int64) :
    Plain (fun n => ctx.nonNegative quantity v = .ok n) (nonNegative ctx quantity v) := by
  unfold nonNegative PassContext.nonNegative
  split
  · exact .pure rfl
  · split
    · exact .pure rfl
    · exact Adds.raise

/-- An array adds that of its length, and its length is the one that was evaluated. -/
theorem adds_arrayCount (length : Length) :
    Adds (fun count items events => items = [] ∧
      ∃ env, ctx.count env length = .ok count ∧
        events = evaluatedIn head.index env length.expr?.toList) (arrayCount ctx head length) := by
  cases length with
  | const n => exact adds_constant fun _ => rfl
  | unbounded => exact adds_constant fun _ => rfl
  | computed e =>
    refine (adds_eval e).bind fun v items events h => ?_
    obtain ⟨rfl, env, hvalue, rfl⟩ := h
    refine .map (Adds.imp (plain_nonNegative _ v) fun n items' events' h => ?_)
    obtain ⟨rfl, rfl, hn⟩ := h
    exact ⟨rfl, env, by simp only [PassContext.count, hvalue, hn, bind, Except.bind]; rfl, rfl⟩

/-- A type adds that of its width, and its width is the one that was evaluated. -/
theorem adds_bitWidth (type : ElementType) :
    Adds (fun width items events => items = [] ∧
      ∃ env, type.width env = .ok width ∧
        events = evaluatedIn head.index env type.widthExpr?.toList) (bitWidth ctx head type) := by
  cases type with
  | bit a =>
    refine (adds_amount a).bind fun w items events h => ?_
    obtain ⟨rfl, env, hvalue, rfl⟩ := h
    split
    · rename_i hbounds
      have hwidth : (ElementType.bit a).width env = .ok w.toInt.toNat := by
        simp only [ElementType.width, hvalue, bind, Except.bind, if_pos hbounds]
        rfl
      exact .pure ⟨rfl, env, hwidth, List.append_nil _⟩
    · exact .raise
  | fixed _ | text | custom _ _ => exact adds_constant fun _ => rfl

theorem adds_alignment (a : Amount) :
    Adds (fun _ items events => items = [] ∧
      ∃ env, events = evaluatedIn head.index env a.expr?.toList) (alignment ctx head a) := by
  refine (adds_amount a).bind fun n items events h => ?_
  obtain ⟨rfl, env, -, rfl⟩ := h
  dsimp only
  split
  · exact Adds.raise.bind (R := fun _ _ _ => False) fun _ _ _ h => h.elim
  · exact .pure ⟨rfl, env, List.append_nil _⟩

theorem adds_skipCount (a : Amount) :
    Adds (fun _ items events => items = [] ∧
      ∃ env, events = evaluatedIn head.index env a.expr?.toList) (skipCount ctx head a) := by
  refine (adds_amount a).bind fun n items events h => ?_
  obtain ⟨rfl, env, -, rfl⟩ := h
  exact (plain_nonNegative _ n).behind (R := fun items events => items = [] ∧
    ∃ env, events = evaluatedIn head.index env a.expr?.toList) ⟨rfl, env, rfl⟩

/-- A custom type adds that of its parameter. -/
theorem adds_customField (use : CustomUse) (extra : Option Amount) :
    Adds (fun _ items events => items = [] ∧
      (ElementType.custom use extra).Consults head.index events) (customField ctx head use extra) := by
  cases extra with
  | none =>
    refine (adds_constant (T := fun _ _ => True) fun _ => trivial).bind ?_
    rintro _ _ _ ⟨rfl, env, -, rfl⟩
    exact .pure ⟨rfl, env, rfl⟩
  | some a =>
    refine (Adds.map ((adds_amount a).imp fun n items events h => ?_)).bind
      (R := fun _ items events => items = [] ∧
        (ElementType.custom use (some a)).Consults head.index events) ?_
    · obtain ⟨hitems, env, -, hevents⟩ := h
      exact ⟨hitems, env, hevents⟩
    · rintro _ _ events ⟨rfl, hevents⟩
      exact .pure ⟨rfl, by rwa [List.append_nil]⟩

/-! ## Items -/

theorem plain_remaining : Plain (fun _ => True) remaining := by
  intro s x s' hrun
  cases hrun
  exact ⟨[], [], rfl, rfl, rfl, rfl, trivial⟩

/-- The next value is an item that was taken. -/
theorem adds_nextValue (declaration : String) :
    Adds (fun v items events => items = [.value v] ∧ events = []) (nextValue declaration) := by
  intro s x s' hrun
  obtain ⟨rest, s₁, hremaining, hrun⟩ := bind_eq_ok.mp hrun
  cases hremaining
  cases hrest : s.pass.stream.items with
  | nil =>
    rw [hrest] at hrun
    cases hrun
  | cons first rest =>
    rw [hrest] at hrun
    cases first with
    | value v =>
      cases hrun
      exact ⟨[.value x], [], rfl, rfl, rfl, rfl⟩
    | elements n => cases hrun

/-- A number of elements is an item that was taken, where one was told. -/
theorem adds_toldCount :
    Adds (fun told items events => items = (told.map Item.elements).toList ∧ events = [])
      toldCount := by
  intro s x s' hrun
  obtain ⟨rest, s₁, hremaining, hrun⟩ := bind_eq_ok.mp hrun
  cases hremaining
  cases hrest : s.pass.stream.items with
  | nil =>
    rw [hrest] at hrun
    cases hrun
    exact ⟨[], [], hrest.symm, rfl, rfl, rfl⟩
  | cons first rest =>
    rw [hrest] at hrun
    cases first with
    | value v =>
      cases hrun
      exact ⟨[], [], hrest.symm, rfl, rfl, rfl⟩
    | elements n =>
      cases hrun
      exact ⟨[.elements n], [], rfl, rfl, rfl, rfl⟩

/-- A length that was checked is the number of values. -/
theorem plain_checkCount (declaration : String) (count : Option Nat) (supplied : Nat) :
    Plain (fun _ => ∀ n ∈ count, n = supplied) (checkCount declaration count supplied) := by
  cases count with
  | none => exact .pure nofun
  | some n =>
    unfold checkCount
    dsimp only
    split
    · rename_i heq
      exact .pure fun m hm => Option.some_inj.mp hm ▸ heq
    · exact Adds.raise

theorem plain_endsBefore (holdsValue : Bool) :
    Plain (fun ends => ends = true → ctx.options.lenient = true ∧ holdsValue = true)
      (endsBefore ctx holdsValue) := by
  refine plain_remaining.bind fun items _ => Plain.pure fun h => ?_
  simp only [Bool.and_eq_true] at h
  exact ⟨h.1.1, h.2⟩

/-! ## Values -/

theorem fitting_of_width {type : ElementType} {env : Expr.Env} {width : Nat}
    (h : type.width env = .ok width) : Fitting width type := by
  rintro a rfl
  obtain ⟨w, -, h⟩ := except_bind_eq_ok.mp h
  split at h
  · rename_i hbounds
    cases h
    exact toNat_le_of_le hbounds.2
  · cases h

section

variable {type : ElementType} {width : Nat} (hwidth : Fitting width type)
include hwidth

theorem adds_scalar (htype : ∀ use extra, type ≠ .custom use extra) (v : Value) :
    Adds (fun written items events => (items = [] ∧ type.Consults head.index events) ∧
      type.Gives width v (written.getD v)) (scalar ctx head width type v) := by
  unfold scalar
  rw [checkedNormalize_of_fitting hwidth, pure_bind]
  cases hnormal : type.normalize width v with
  | none => exact .raise
  | some node =>
    refine (plain_onWriter _).bind fun _ _ => .pure ?_
    cases type with
    | custom use extra => exact absurd rfl (htype use extra)
    | fixed _ | bit _ | text => exact ⟨⟨rfl, rfl⟩, hnormal⟩

/-- An element gives the value that its type makes of what was supplied. -/
theorem adds_element (v : Value) :
    Adds (fun written items events => (items = [] ∧ type.Consults head.index events) ∧
      type.Gives width v (written.getD v)) (element ctx head width type v) := by
  cases type with
  | custom use extra =>
    refine (adds_customField use extra).bind fun field items events h => ?_
    obtain ⟨rfl, hconsults⟩ := h
    refine (plain_onWriter _).bind fun _ _ => .pure ⟨⟨rfl, ?_⟩, rfl⟩
    rwa [List.append_nil]
  | fixed _ | bit _ | text => exact adds_scalar hwidth (fun _ _ h => by cases h) v

theorem adds_elements (vs : List Value) :
    Adds (fun _ items events => items = [] ∧ ∃ extras : List (List Event),
      (∀ extra ∈ extras, type.Consults head.index extra) ∧ events = extras.flatten)
      (elements ctx head width type vs) := by
  induction vs with
  | nil => exact .pure ⟨rfl, [], nofun, rfl⟩
  | cons v vs ih =>
    refine (adds_element hwidth v).bind fun written items events h => ?_
    obtain ⟨⟨rfl, hconsults⟩, -⟩ := h
    refine ih.imp fun _ items' events' h => ?_
    obtain ⟨rfl, extras, hextras, rfl⟩ := h
    exact ⟨rfl, events :: extras, List.forall_mem_cons.mpr ⟨hconsults, hextras⟩, rfl⟩

end

/-- The node of a declaration that has taken its value. -/
theorem adds_value (type : ElementType) (length : Option Length) (v : Value) :
    Adds (fun _ items events => (Decl.value type length).Filled ctx head.index
      (.value v :: items) events) (value ctx head type length v) := by
  refine (adds_bitWidth type).bind fun width items events h => ?_
  obtain ⟨rfl, env, hwide, rfl⟩ := h
  have hwidth := fitting_of_width hwide
  cases length with
  | none =>
    refine (adds_element hwidth v).bind fun written items events h => ?_
    obtain ⟨⟨rfl, hconsults⟩, hgives⟩ := h
    have hnode : Adds (fun _ items events' => (Decl.value type none).Filled ctx head.index
        (.value v :: items) (evaluatedIn head.index env type.widthExpr?.toList ++
          (events ++ events'))) (note (.node head.index (written.getD v))) := by
      refine (adds_note _).imp fun _ items events' h => ?_
      obtain ⟨rfl, rfl⟩ := h
      exact .single hwide hconsults hgives
    cases written with
    | none => exact hnode
    | some node => exact (plain_register _ _).bind fun _ _ => hnode
  | some length =>
    refine (adds_arrayCount length).bind fun count items events h => ?_
    obtain ⟨rfl, env', hcounted, rfl⟩ := h
    have hnode (n : Nat) (hcount : ∀ m ∈ count, m = n) (hsize : v.elementCount? = some n)
        (extras : List (List Event)) (hextras : ∀ extra ∈ extras, type.Consults head.index extra) :
        Adds (fun _ items events' => (Decl.value type (some length)).Filled ctx head.index
          (.value v :: items) (evaluatedIn head.index env type.widthExpr?.toList ++
            (evaluatedIn head.index env' length.expr?.toList ++ (extras.flatten ++ events'))))
          (note (.node head.index v)) := by
      refine (adds_note _).imp fun _ items events' h => ?_
      obtain ⟨rfl, rfl⟩ := h
      exact .array hwide hcounted (fun m hm => hcount m hm ▸ hsize) hextras
    dsimp only
    split
    · refine (plain_checkCount _ _ _).bind fun _ hcount => ?_
      exact (plain_onWriter _).bind fun _ _ => hnode _ hcount rfl [] nofun
    · refine (plain_checkCount _ _ _).bind fun _ hcount => ?_
      refine (adds_elements hwidth _).bind fun _ items events h => ?_
      obtain ⟨rfl, extras, hextras, rfl⟩ := h
      exact hnode _ hcount rfl extras hextras
    · exact .raise

/-- A declaration takes its items and adds its node. -/
theorem adds_item (decl : Decl) :
    Adds (fun _ items events => decl.Filled ctx head.index items events) (item ctx head decl) := by
  cases decl with
  | value type length =>
    refine (adds_nextValue _).bind fun v items events h => ?_
    obtain ⟨rfl, rfl⟩ := h
    exact adds_value type length v
  | computed a =>
    refine (adds_amount a).bind fun n items events h => ?_
    obtain ⟨rfl, env, hvalue, rfl⟩ := h
    refine (plain_register _ _).bind fun _ _ => (adds_note _).imp fun _ items events h => ?_
    obtain ⟨rfl, rfl⟩ := h
    exact .computed hvalue
  | align a =>
    refine (adds_alignment a).bind fun n items events h => ?_
    obtain ⟨rfl, env, rfl⟩ := h
    exact (plain_onWriter _).behind .align
  | skip a =>
    refine (adds_skipCount a).bind fun n items events h => ?_
    obtain ⟨rfl, env, rfl⟩ := h
    exact (plain_onWriter _).behind .skip
  | reset =>
    refine Adds.imp (plain_onWriter _) fun _ items events h => ?_
    obtain ⟨rfl, rfl, -⟩ := h
    exact .reset

/-! ## Structures -/

section

variable {l : Layout} {index : Nat} {body : WatchedM Feed Flow}
  (h : Adds (fun flow items events => l.Filled ctx items events flow) body)
include h

/-- One element: it begins, and then its body is filled. -/
theorem adds_began :
    Adds (fun flow items events => ∃ events', events = .element index :: events' ∧
      l.Filled ctx items events' flow) (note (.element index) >>= fun _ => body) := by
  refine (adds_note _).bind fun _ items events hnote => ?_
  obtain ⟨rfl, rfl⟩ := hnote
  exact h.imp fun flow items events hfilled => ⟨events, rfl, hfilled⟩

/-- Elements that are told are filled one by one, by induction over their number. -/
theorem adds_times (count : Nat) :
    Adds (fun flow items events => Elements.Filled ctx index l count items events flow)
      (times (note (.element index) >>= fun _ => body) count) := by
  induction count with
  | zero => exact .pure .done
  | succ count ih =>
    refine (adds_began h).bind fun flow items events hone => ?_
    obtain ⟨events, rfl, hone⟩ := hone
    cases flow with
    | stop =>
      refine .pure ?_
      rw [List.append_nil, List.append_nil]
      exact .last hone
    | goOn => exact ih.imp fun flow items' events' hmore => .next hone hmore

/-- The induction is on the items still to write. -/
theorem adds_whileItems (idle : Error) :
    Adds (fun flow items events => ∃ n, Elements.Filled ctx index l n items events flow)
      (whileItems idle (note (.element index) >>= fun _ => body)) := by
  intro s
  induction hlength : s.pass.stream.items.length using Nat.strongRecOn generalizing s with
  | ind n ih =>
  intro flow s' hrun
  rw [whileItems] at hrun
  by_cases hempty : s.pass.stream.items.isEmpty
  · rw [if_pos hempty] at hrun
    cases hrun
    exact ⟨[], [], rfl, rfl, 0, .done⟩
  · rw [if_neg hempty] at hrun
    cases hbody : (note (.element index) >>= fun _ => body) s with
    | error e s₁ =>
      rw [hbody] at hrun
      cases hrun
    | ok first s₁ =>
      rw [hbody] at hrun
      obtain ⟨items, _, hitems, hpast, events, rfl, hone⟩ := adds_began h s first s₁ hbody
      cases first with
      | stop =>
        cases hrun
        exact ⟨items, _, hitems, hpast, 1, .last hone⟩
      | goOn =>
        dsimp only at hrun
        split at hrun
        · rename_i hless
          obtain ⟨items', events', hitems', hpast', m, hmore⟩ :=
            ih _ (hlength ▸ hless) s₁ rfl flow s' hrun
          refine ⟨items ++ items', _, ?_, ?_, m + 1, .next hone hmore⟩
          · rw [hitems, hitems', List.append_assoc]
          · rw [hpast', hpast, ← List.cons_append, List.reverse_append, List.append_assoc]
        · cases hrun

/-- A structure is filled, or an array of them with as many elements as there were items for. -/
theorem adds_group (length : Option Length) :
    Adds (fun flow items events => Group.Filled ctx head.index l length items events flow)
      (group ctx head length body) := by
  cases length with
  | none => exact h.imp fun flow items events hone => .struct hone
  | some length =>
    refine (adds_arrayCount length).bind fun count items events hcount => ?_
    obtain ⟨rfl, env, hcounted, rfl⟩ := hcount
    refine adds_toldCount.bind fun told items events htold => ?_
    obtain ⟨rfl, rfl⟩ := htold
    have harray {n : Nat} {flow behind : Flow} {items : List Item} {events : List Event}
        (hplanned : Planned ctx.options.lenient count told n flow behind)
        (hall : Elements.Filled ctx head.index l n items events flow) :
        Group.Filled ctx head.index l (some length) ((told.map Item.elements).toList ++ items)
          (evaluatedIn head.index env length.expr?.toList ++ events) behind :=
      .array hcounted hplanned hall
    dsimp only
    split
    · rename_i expected supplied
      split
      · rename_i heq
        subst heq
        exact (adds_times h _).imp fun flow items events hall => harray .agreed hall
      · split
        · rename_i hshort
          rw [Bool.and_eq_true, decide_eq_true_eq] at hshort
          refine (adds_times h _).bind fun flow items events hall => .pure ?_
          rw [List.append_nil, List.append_nil]
          exact harray (.short hshort.1 hshort.2) hall
        · exact .raise
    · exact (adds_times h _).imp fun flow items events hall => harray .counted hall
    · exact (adds_times h _).imp fun flow items events hall => harray .told hall
    · refine (adds_whileItems h _).imp fun flow items events hall => ?_
      obtain ⟨n, hall⟩ := hall
      exact harray .free hall

end

/-- The induction is on the layout. -/
theorem adds_fields (l : Layout) :
    Adds (fun flow items events => l.Filled ctx items events flow) (fields ctx l) := by
  induction l with
  | done => exact .pure .done
  | item head decl rest ih =>
    refine (plain_endsBefore _).bind fun ends hends => ?_
    split
    · rename_i hcut
      obtain ⟨hlenient, hholds⟩ := hends hcut
      exact .pure (.cut hlenient hholds)
    · exact (adds_item decl).bind fun _ items events hfirst =>
        ih.imp fun flow items' events' hlater => .item hfirst hlater
  | group head length body closing rest ihbody ihrest =>
    refine (plain_endsBefore _).bind fun ends hends => ?_
    split
    · rename_i hcut
      obtain ⟨hlenient, hholds⟩ := hends hcut
      exact .pure (.cutGroup hlenient hholds)
    · refine (adds_group ihbody length).bind fun flow items events hgroup => ?_
      cases flow with
      | stop =>
        refine .pure ?_
        rw [List.append_nil, List.append_nil]
        exact .lastGroup hgroup
      | goOn => exact ihrest.imp fun flow items' events' hlater => .group hgroup hlater

/-- A write that succeeds has filled its layout with all of its items. -/
theorem filled_record {l : Layout} {items : List Item} {writer : Writer}
    (h : resultOf (record ctx l ⟨⟨⟨writer, items⟩, .empty, []⟩, []⟩) = .ok ()) :
    ∃ flow, l.Filled ctx items
      (stateOf (record ctx l ⟨⟨⟨writer, items⟩, .empty, []⟩, []⟩)).past.reverse flow := by
  cases hrun : record ctx l ⟨⟨⟨writer, items⟩, .empty, []⟩, []⟩ with
  | error e s =>
    rw [hrun] at h
    cases h
  | ok x s =>
    obtain ⟨flow, s₁, hfields, hrest⟩ := bind_eq_ok.mp hrun
    obtain ⟨taken, events, hitems, hpast, hfilled⟩ := adds_fields l _ _ _ hfields
    obtain ⟨rest, s₂, hremaining, hrest⟩ := bind_eq_ok.mp hrest
    cases hremaining
    split at hrest
    · rename_i hempty
      -- No item is left, and the end of the writer takes none and adds nothing.
      obtain ⟨items', events', -, hpast', rfl, rfl, -⟩ := plain_onWriter _ _ _ _ hrest
      have hall : items = taken := by
        rw [List.isEmpty_iff.mp hempty, List.append_nil] at hitems
        exact hitems
      refine ⟨flow, ?_⟩
      rw [hall]
      simpa [stateOf, hpast', hpast] using hfilled
    · cases hrest

end Encode.Watched

end RecordLayout
