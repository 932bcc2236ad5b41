import RecordLayout.Expr.Eval
import RecordLayout.Layout.Basic

/-!
# Passes

A pass goes through a layout once, reading or writing one record. It works on a stream, remembers
the latest value of every numeric declaration for the expressions that come later, and keeps the
list of questions it put to the caller's resolver. A pass that fails keeps what it had done.
-/

namespace RecordLayout

/-- How records are read and written. -/
structure CodecOptions where
  bitOrder : BitOrder := .lsb0
  /-- A record may end before any declaration that holds a value: a read stops where the stream
  ends, a write where the values do. -/
  lenient : Bool := false
  /-- A negative length or skip count is taken as zero. -/
  clampNegative : Bool := false

/-- What a pass is given besides layout and stream. -/
structure PassContext where
  options : CodecOptions
  resolver : Option Resolver

/-- The state of a pass over a stream of type `δ`. -/
structure PassState (δ : Type) where
  stream : δ
  numbers : Numbers
  /-- The questions put to the resolver, in order. -/
  asked : List (String × Expr)

/-- An operation of a pass. -/
abbrev PassM (δ : Type) := EStateM Error (PassState δ)

/-- A stream that counts its bytes for expressions. -/
class ByteCounter (δ : Type) where
  count : δ → Nat

/-- Whether a pass goes on behind a part of a layout, or has come to the end of the record. -/
inductive Flow where
  | goOn
  | stop
  deriving DecidableEq, Repr

namespace PassM

variable {δ α : Type}

/-- An operation of the stream. -/
def onStream (m : EStateM Error δ α) : PassM δ α := fun s =>
  match m s.stream with
  | .ok x stream => .ok x { s with stream := stream }
  | .error e stream => .error e { s with stream := stream }

/-- Remembers the value of a declaration, if it is named and the value an integer. -/
def register (info : Option FieldInfo) (value : Value) : PassM δ Unit :=
  match info, value.asInt with
  | some info, some n => modify fun s => { s with numbers := s.numbers.put info.index n }
  | _, _ => pure ()

/-- What an expression is evaluated in now. -/
def env [ByteCounter δ] (ctx : PassContext) (s : PassState δ) : Expr.Env :=
  ⟨s.numbers, .ofNat (ByteCounter.count s.stream), ctx.resolver⟩

/-- The value of an expression. -/
def eval [ByteCounter δ] (ctx : PassContext) (e : Expr) : PassM δ Int64 := fun s =>
  let env := env ctx s
  let s := { s with asked := s.asked ++ e.asked env }
  match e.eval env with
  | .ok v => .ok v s
  | .error e => .error e s

/-- The value of a parameter. -/
def amount [ByteCounter δ] (ctx : PassContext) : Amount → PassM δ Int64
  | .const n => pure (.ofNat n.toNat)
  | .computed e => eval ctx e

/-- The value of a parameter that need not be there. -/
def amount? [ByteCounter δ] (ctx : PassContext) : Option Amount → PassM δ (Option Int64)
  | none => pure none
  | some a => some <$> amount ctx a

/-- A quantity that must not be negative, or counts as zero if the options say so. -/
def nonNegative (ctx : PassContext) (quantity : Quantity) (value : Int64) : PassM δ Nat :=
  if 0 ≤ value then pure value.toInt.toNat
  else if ctx.options.clampNegative then pure 0
  else throw (.negative quantity value)

/-- The length of an array; none if it goes to the end of the stream. -/
def arrayCount [ByteCounter δ] (ctx : PassContext) : Length → PassM δ (Option Nat)
  | .const n => pure (some n.toNat)
  | .computed e => do
    let v ← eval ctx e
    some <$> nonNegative ctx .arrayLength v
  | .unbounded => pure none

/-- The bit width of an element; zero for types that have no such parameter. -/
def bitWidth [ByteCounter δ] (ctx : PassContext) : ElementType → PassM δ Nat
  | .bit width => do
    let w ← amount ctx width
    if 1 ≤ w ∧ w ≤ 8 then pure w.toInt.toNat else throw (.bitWidth w)
  | _ => pure 0

/-- The number whose multiples an alignment goes to. -/
def alignment [ByteCounter δ] (ctx : PassContext) (a : Amount) : PassM δ Nat := do
  let n ← amount ctx a
  if n < 1 then throw (.badAlignment n)
  pure n.toInt.toNat

/-- The number of bytes that a skip passes over. -/
def skipCount [ByteCounter δ] (ctx : PassContext) (a : Amount) : PassM δ Nat := do
  let n ← amount ctx a
  nonNegative ctx .skipCount n

/-- What a custom type is told. -/
def customField [ByteCounter δ] (ctx : PassContext) (head : Header) (use : CustomUse)
    (extra : Option Amount) : PassM δ CustomField := do
  let extra ← amount? ctx extra
  pure ⟨use.type, head.info, extra, head.order⟩

end PassM

/-- What a pass leaves: its result, the stream, and the questions it put to the resolver. -/
structure PassReport (δ α : Type) where
  result : Except Error α
  stream : δ
  asked : List (String × Expr)

/-- A whole pass over a stream. -/
def PassM.report {δ α : Type} (m : PassM δ α) (stream : δ) : PassReport δ α :=
  match m ⟨stream, .empty, []⟩ with
  | .ok x s => ⟨.ok x, s.stream, s.asked⟩
  | .error e s => ⟨.error e, s.stream, s.asked⟩

end RecordLayout
