/-!
# Sources

A source serves bytes one after another. A request may be interrupted before it is served, which
means nothing but that it has to be made again, and after the last byte the source either ends or
fails on every further request. How many bytes it hands over at a time makes no difference.
-/

namespace RecordLayout

/-- What a source does next. -/
inductive Source.Event where
  | byte (b : UInt8)
  | interrupted
  deriving DecidableEq, Repr

/-- A source of bytes. -/
structure Source where
  events : List Source.Event
  /-- The message with which requests fail after the last event, if the source does not end. -/
  failure : Option String
  deriving DecidableEq, Repr

namespace Source

/-- The source that serves these bytes and ends. -/
def ofBytes (bytes : List UInt8) : Source := ⟨bytes.map .byte, none⟩

/-- The bytes still to be served. -/
def bytes (s : Source) : List UInt8 :=
  s.events.filterMap fun
    | .byte b => some b
    | .interrupted => none

/-- The event serves a byte. -/
def Event.isByte : Event → Bool
  | .byte _ => true
  | .interrupted => false

/-- How many bytes are still to be served. -/
def size (s : Source) : Nat := s.events.countP Event.isByte

theorem size_eq_length_bytes (s : Source) : s.size = s.bytes.length := by
  rw [size, bytes]
  induction s.events with
  | nil => rfl
  | cons e rest ih => cases e <;> simp [List.countP_cons, Event.isByte, ih]

@[simp] theorem bytes_ofBytes (bs : List UInt8) : (ofBytes bs).bytes = bs := by
  induction bs with
  | nil => rfl
  | cons b rest ih => exact congrArg (b :: ·) ih

/-- The answer to a request for one byte. -/
inductive Answer where
  | byte (b : UInt8) (rest : Source)
  | ended
  | failed (message : String)

/-- Requests a byte, again if interrupted, of a source with these events. -/
def request (failure : Option String) : List Event → Answer
  | [] =>
    match failure with
    | none => .ended
    | some message => .failed message
  | .byte b :: rest => .byte b ⟨rest, failure⟩
  | .interrupted :: rest => request failure rest

/-- Requests a byte. -/
def next (s : Source) : Answer := request s.failure s.events

/-- At most this many bytes from the front of the events, with the events behind them. -/
def takeUpTo : (count : Nat) → List Event → List UInt8 × List Event
  | _, [] => ([], [])
  | 0, events => ([], events)
  | count + 1, .byte b :: rest =>
    let (more, rest) := takeUpTo count rest
    (b :: more, rest)
  | count + 1, .interrupted :: rest => takeUpTo (count + 1) rest

end Source

end RecordLayout
