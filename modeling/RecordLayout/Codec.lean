import RecordLayout.Layout.Compile
import RecordLayout.Pass.Decode
import RecordLayout.Pass.Encode

/-!
# Codecs

A codec is a layout with the options by which its records are read and written. It keeps nothing
from one record to the next.
-/

namespace RecordLayout

/-- A layout with options. -/
structure Codec where
  layout : Layout
  options : CodecOptions := {}

/-- A record that was read. -/
structure Decoded where
  tree : Field
  /-- How many bytes were taken for it. -/
  consumed : Nat

namespace Codec

/-- What passes of the codec are given. -/
def context (c : Codec) (resolver : Option Resolver) : PassContext := ⟨c.options, resolver⟩

/-- Reads a record from a source. -/
def read (c : Codec) (resolver : Option Resolver) (source : Source) : PassReport Reader Field :=
  (Decode.record (c.context resolver) c.layout).report (.ofSource source)

/-- The record at the front of some bytes. -/
def decode (c : Codec) (resolver : Option Resolver) (bytes : List UInt8) : Except Error Decoded :=
  let report := c.read resolver (.ofBytes bytes)
  report.result.map (⟨·, report.stream.fetched⟩)

/-- Writes items to a sink. -/
def write (c : Codec) (resolver : Option Resolver) (items : List Item) (sink : Sink) :
    PassReport Feed Unit :=
  (Encode.record (c.context resolver) c.layout).report ⟨.ofSink sink, items⟩

/-- Writes a tree to a sink. -/
def writeTree (c : Codec) (resolver : Option Resolver) (tree : Field) (sink : Sink) :
    PassReport Feed Unit :=
  match Item.ofTree c.layout tree with
  | .ok (items, _) => c.write resolver items sink
  | .error e => ⟨.error e, ⟨.ofSink sink, []⟩, []⟩

/-- Writes values in document order to a sink. -/
def writeValues (c : Codec) (resolver : Option Resolver) (values : List Value) (sink : Sink) :
    PassReport Feed Unit :=
  c.write resolver (values.map .value) sink

end Codec

/-- The bytes that a write gave to its sink. -/
def PassReport.bytes {α : Type} (report : PassReport Feed α) : List UInt8 :=
  report.stream.writer.sink.received.toList

namespace Codec

/-- The bytes of a tree. -/
def encode (c : Codec) (resolver : Option Resolver) (tree : Field) : Except Error (List UInt8) :=
  let report := c.writeTree resolver tree .empty
  report.result.map fun _ => report.bytes

/-- The bytes of values in document order. -/
def encodeValues (c : Codec) (resolver : Option Resolver) (values : List Value) :
    Except Error (List UInt8) :=
  let report := c.writeValues resolver values .empty
  report.result.map fun _ => report.bytes

end Codec

end RecordLayout
