import RecordLayout.Pass.Basic
import RecordLayout.Proofs.Checked.Fault

/-!
# Watched passes

A watched pass does what a pass does, checks what it relies on, and keeps its past: when an element
of a structure array begins, when a declaration gets a node, and when an expression is evaluated, and
in what. Nothing it does depends on the past.
-/

namespace RecordLayout

/-- Something that happens in a pass. -/
inductive Event where
  /-- An element of the structure array with this index begins. -/
  | element (array : Nat)
  /-- The declaration with this index gets a node: its value is read, written or computed. -/
  | node (declaration : Nat) (value : Value)
  /-- An expression of the declaration with this index is evaluated. -/
  | evaluated (declaration : Nat) (e : Expr) (env : Expr.Env)

/-- The state of a pass with its past, the latest event first. -/
structure WatchedState (δ : Type) where
  pass : PassState δ
  past : List Event

/-- An operation of a watched pass. -/
abbrev WatchedM (δ : Type) := CheckedM (WatchedState δ)

namespace PassM.Watched

variable {δ α : Type}

/-- An operation of the stream. -/
def onStream (w : CheckedM δ α) : WatchedM δ α := fun s =>
  match w s.pass.stream with
  | .ok x stream => .ok x { s with pass := { s.pass with stream := stream } }
  | .error e stream => .error e { s with pass := { s.pass with stream := stream } }

/-- Something happens. -/
def note (e : Event) : WatchedM δ Unit := modify fun s => { s with past := e :: s.past }

/-- Remembers the value of a declaration, if it is named and the value an integer. -/
def register (info : Option FieldInfo) (value : Value) : WatchedM δ Unit :=
  match info, value.asInt with
  | some info, some n =>
    modify fun s => { s with pass := { s.pass with numbers := s.pass.numbers.put info.index n } }
  | _, _ => pure ()

/-- The value of an expression of a declaration. -/
def eval [ByteCounter δ] (ctx : PassContext) (head : Header) (e : Expr) : WatchedM δ Int64 := fun s =>
  let env := PassM.env ctx s.pass
  let s : WatchedState δ :=
    { pass := { s.pass with asked := s.pass.asked ++ e.asked env },
      past := .evaluated head.index e env :: s.past }
  match e.eval env with
  | .ok v => .ok v s
  | .error e => .error (.error e) s

/-- The value of a parameter. -/
def amount [ByteCounter δ] (ctx : PassContext) (head : Header) : Amount → WatchedM δ Int64
  | .const n => pure (.ofNat n.toNat)
  | .computed e => eval ctx head e

/-- The value of a parameter that need not be there. -/
def amount? [ByteCounter δ] (ctx : PassContext) (head : Header) :
    Option Amount → WatchedM δ (Option Int64)
  | none => pure none
  | some a => some <$> amount ctx head a

/-- A quantity that must not be negative. -/
def nonNegative (ctx : PassContext) (quantity : Quantity) (value : Int64) : WatchedM δ Nat :=
  if 0 ≤ value then pure value.toInt.toNat
  else if ctx.options.clampNegative then pure 0
  else raise (.negative quantity value)

/-- The length of an array; none if it goes to the end of the stream. -/
def arrayCount [ByteCounter δ] (ctx : PassContext) (head : Header) :
    Length → WatchedM δ (Option Nat)
  | .const n => pure (some n.toNat)
  | .computed e => do
    let v ← eval ctx head e
    some <$> nonNegative ctx .arrayLength v
  | .unbounded => pure none

/-- The bit width of an element. -/
def bitWidth [ByteCounter δ] (ctx : PassContext) (head : Header) : ElementType → WatchedM δ Nat
  | .bit width => do
    let w ← amount ctx head width
    if 1 ≤ w ∧ w ≤ 8 then pure w.toInt.toNat else raise (.bitWidth w)
  | _ => pure 0

/-- The number whose multiples an alignment goes to. -/
def alignment [ByteCounter δ] (ctx : PassContext) (head : Header) (a : Amount) : WatchedM δ Nat := do
  let n ← amount ctx head a
  if n < 1 then raise (.badAlignment n)
  pure n.toInt.toNat

/-- The number of bytes that a skip passes over. -/
def skipCount [ByteCounter δ] (ctx : PassContext) (head : Header) (a : Amount) : WatchedM δ Nat := do
  let n ← amount ctx head a
  nonNegative ctx .skipCount n

/-- What a custom type is told. -/
def customField [ByteCounter δ] (ctx : PassContext) (head : Header) (use : CustomUse)
    (extra : Option Amount) : WatchedM δ CustomField := do
  let extra ← amount? ctx head extra
  pure ⟨use.type, head.info, extra, head.order⟩

end PassM.Watched

/-! ## Watching changes nothing -/

/-- The watched operation finds no fault and does what the operation does, as long as the stream has
a property. -/
abbrev WatchedSafe {δ α : Type} (P : δ → Prop) (m : PassM δ α) (w : WatchedM δ α) : Prop :=
  Safe (fun s => P s.stream) WatchedState.pass m w

/-- A watched pass that ends so makes this report. -/
structure Watches {δ α : Type} (w : EStateM.Result Stopped (WatchedState δ) α)
    (report : PassReport δ α) : Prop where
  result : resultOf w = report.result.mapError Stopped.error
  stream : (stateOf w).pass.stream = report.stream
  asked : (stateOf w).pass.asked = report.asked

/-- A watched pass from the front of a stream makes the report of the pass. -/
theorem WatchedSafe.watches {δ α : Type} {P : δ → Prop} {m : PassM δ α} {w : WatchedM δ α}
    (h : WatchedSafe P m w) {stream : δ} (hstream : P stream) :
    Watches (w ⟨⟨stream, .empty, []⟩, []⟩) (m.report stream) := by
  unfold PassM.report
  cases hm : m ⟨stream, .empty, []⟩ with
  | ok x s =>
    obtain ⟨t, hw, rfl, -⟩ := h.eq_ok (t := ⟨⟨stream, .empty, []⟩, []⟩) hstream hm
    rw [hw]
    exact ⟨rfl, rfl, rfl⟩
  | error e s =>
    obtain ⟨t, hw, rfl, -⟩ := h.eq_error (t := ⟨⟨stream, .empty, []⟩, []⟩) hstream hm
    rw [hw]
    exact ⟨rfl, rfl, rfl⟩

/-- A watched pass finds no fault, since a report has none. -/
theorem Watches.no_fault {δ α : Type} {w : EStateM.Result Stopped (WatchedState δ) α}
    {report : PassReport δ α} (h : Watches w report) (f : Fault) :
    resultOf w ≠ .error (.fault f) := by
  rw [h.result]
  intro hfault
  cases hresult : report.result with
  | ok x =>
    rw [hresult] at hfault
    cases hfault
  | error e =>
    rw [hresult] at hfault
    cases hfault

namespace PassM.Watched

variable {δ α : Type} {P : δ → Prop} {ctx : PassContext}

/-- A checked operation of the stream is safe in a watched pass. -/
theorem safe_onStream {m : EStateM Error δ α} {w : CheckedM δ α} (h : Safe P id m w) :
    WatchedSafe P (PassM.onStream m) (onStream w) := by
  intro s hs
  unfold PassM.onStream onStream
  cases hm : m s.pass.stream with
  | ok x stream =>
    obtain ⟨stream', hw, rfl, hkeep⟩ := h.eq_ok hs hm
    rw [hw]
    exact ⟨rfl, hkeep⟩
  | error e stream =>
    obtain ⟨stream', hw, rfl, hkeep⟩ := h.eq_error hs hm
    rw [hw]
    exact ⟨rfl, hkeep⟩

theorem safe_note (e : Event) : WatchedSafe P (pure ()) (note e) := fun _ h => ⟨rfl, h⟩

/-- An event in front of an operation. -/
theorem safe_note_bind {m : PassM δ α} {w : WatchedM δ α} (h : WatchedSafe P m w) (e : Event) :
    WatchedSafe P m (note e >>= fun _ => w) := by
  have hbind := (safe_note (P := P) e).bind fun _ => h
  rwa [pure_bind] at hbind

theorem safe_register (info : Option FieldInfo) (v : Value) :
    WatchedSafe P (PassM.register info v) (register info v) := by
  cases info with
  | none => exact Safe.pure _
  | some info =>
    unfold PassM.register register
    cases v.asInt with
    | none => exact Safe.pure _
    | some n => exact Safe.modify (fun _ => rfl) fun _ h => h

theorem safe_nonNegative (quantity : Quantity) (v : Int64) :
    WatchedSafe P (PassM.nonNegative ctx quantity v) (nonNegative ctx quantity v) := by
  unfold PassM.nonNegative nonNegative
  split
  · exact Safe.pure _
  · split
    · exact Safe.pure _
    · exact Safe.throw _

variable [ByteCounter δ] {head : Header}

theorem safe_eval (e : Expr) : WatchedSafe P (PassM.eval ctx e) (eval ctx head e) := by
  intro s hs
  simp only [PassM.eval, eval]
  cases e.eval (PassM.env ctx s.pass) with
  | ok v => exact ⟨rfl, hs⟩
  | error e => exact ⟨rfl, hs⟩

theorem safe_amount (a : Amount) : WatchedSafe P (PassM.amount ctx a) (amount ctx head a) := by
  cases a with
  | const n => exact Safe.pure _
  | computed e => exact safe_eval e

theorem safe_arrayCount (l : Length) :
    WatchedSafe P (PassM.arrayCount ctx l) (arrayCount ctx head l) := by
  cases l with
  | const n => exact Safe.pure _
  | computed e => exact (safe_eval e).bind fun v => (safe_nonNegative _ v).map some
  | unbounded => exact Safe.pure _

theorem safe_bitWidth (type : ElementType) :
    WatchedSafe P (PassM.bitWidth ctx type) (bitWidth ctx head type) := by
  cases type with
  | bit width =>
    refine (safe_amount width).bind fun w => ?_
    split
    · exact Safe.pure _
    · exact Safe.throw _
  | fixed _ | text | custom _ _ => exact Safe.pure _

theorem safe_alignment (a : Amount) :
    WatchedSafe P (PassM.alignment ctx a) (alignment ctx head a) := by
  refine (safe_amount a).bind fun n => ?_
  dsimp only
  split
  · exact (Safe.throw _).bind fun _ => Safe.pure _
  · exact Safe.pure _

theorem safe_skipCount (a : Amount) :
    WatchedSafe P (PassM.skipCount ctx a) (skipCount ctx head a) :=
  (safe_amount a).bind fun n => safe_nonNegative _ n

/-- The parameter of a custom type is noted as that of a declaration is. -/
theorem safe_customField (use : CustomUse) (extra : Option Amount) :
    WatchedSafe P (PassM.customField ctx head use extra) (customField ctx head use extra) := by
  cases extra with
  | none => exact Safe.bind (Safe.pure _) fun _ => Safe.pure _
  | some a => exact Safe.bind ((safe_amount a).map some) fun _ => Safe.pure _

end PassM.Watched

end RecordLayout
