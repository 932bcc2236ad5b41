/-!
# Sinks

A sink takes bytes one at a time. It may refuse to hold more than a number of them, and it may fail
when it is told to pass on what it holds.
-/

namespace RecordLayout

/-- A sink of bytes. -/
structure Sink where
  received : Array UInt8
  /-- How many bytes the sink takes, and the message with which it refuses more. -/
  limit : Option (Nat × String)
  /-- The message with which a flush fails. -/
  flushFailure : Option String

namespace Sink

/-- A sink that takes everything. -/
def empty : Sink := ⟨#[], none, none⟩

/-- The sink with one more byte, or why it refuses it. -/
def put (s : Sink) (b : UInt8) : Except String Sink :=
  match s.limit with
  | none => .ok { s with received := s.received.push b }
  | some (limit, message) =>
    if s.received.size < limit then .ok { s with received := s.received.push b }
    else .error message

end Sink

end RecordLayout
