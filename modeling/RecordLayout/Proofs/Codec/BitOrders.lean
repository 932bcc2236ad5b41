import RecordLayout.Codec
import RecordLayout.Proofs.Pass.Mirror

/-!
# The two bit orders of a codec

A codec in one bit order and the same codec in the other do the same to mirrored streams: the same
records are read, the same errors are met, the resolver is asked the same questions, and the bytes
written are those of the other order with the bits of each byte reversed. This holds whatever custom
types the layout uses.
-/

namespace RecordLayout

/-- Passes that mirror each other make the same report but for the stream. -/
theorem PassM.report_of_mirrors {δ α : Type} {f : δ → δ} {m m' : PassM δ α}
    (h : Mirrors (PassState.over f) m m') (stream : δ) :
    m'.report (f stream) = { m.report stream with stream := f (m.report stream).stream } := by
  have hstart := h ⟨stream, .empty, []⟩
  simp only [PassState.over] at hstart
  unfold report
  rw [hstart]
  cases m ⟨stream, .empty, []⟩ <;> rfl

namespace Codec

/-- The codec with another bit order. -/
def inOrder (c : Codec) (order : BitOrder) : Codec :=
  { c with options := { c.options with bitOrder := order } }

theorem context_inOrder (c : Codec) (order : BitOrder) (resolver : Option Resolver) :
    (c.inOrder order).context resolver = (c.context resolver).inOrder order := rfl

/-- A read of the mirrored source, whether it succeeds or not. -/
theorem read_mirror (c : Codec) (resolver : Option Resolver) (source : Source) :
    (c.inOrder .lsb0).read resolver source.mirror =
      { (c.inOrder .msb0).read resolver source with
        stream := ((c.inOrder .msb0).read resolver source).stream.mirror } := by
  unfold read
  rw [context_inOrder, context_inOrder, ← Reader.mirror_ofSource]
  exact PassM.report_of_mirrors (Decode.mirrors_record _ _) _

/-- A write to the mirrored sink, whether it succeeds or not. -/
theorem write_mirror (c : Codec) (resolver : Option Resolver) (items : List Item) (sink : Sink) :
    (c.inOrder .lsb0).write resolver items sink.mirror =
      { (c.inOrder .msb0).write resolver items sink with
        stream := ((c.inOrder .msb0).write resolver items sink).stream.mirror } := by
  unfold write
  rw [context_inOrder, context_inOrder, ← Writer.mirror_ofSink]
  exact PassM.report_of_mirrors (Encode.mirrors_record _ _)
    (⟨.ofSink sink, items⟩ : Feed)

/-- The items of a tree do not depend on the bit order. -/
theorem writeTree_mirror (c : Codec) (resolver : Option Resolver) (tree : Field) (sink : Sink) :
    (c.inOrder .lsb0).writeTree resolver tree sink.mirror =
      { (c.inOrder .msb0).writeTree resolver tree sink with
        stream := ((c.inOrder .msb0).writeTree resolver tree sink).stream.mirror } := by
  have hitems : Item.ofTree (c.inOrder .lsb0).layout tree =
      Item.ofTree (c.inOrder .msb0).layout tree := rfl
  unfold writeTree
  rw [hitems]
  cases Item.ofTree (c.inOrder .msb0).layout tree with
  | ok laid => exact write_mirror c resolver laid.1 sink
  | error e =>
    have hstream : (⟨.ofSink sink, []⟩ : Feed).mirror = ⟨.ofSink sink.mirror, []⟩ := by
      unfold Feed.mirror
      rw [Writer.mirror_ofSink]
    dsimp only
    rw [hstream]

/-- The bytes of a write in one order, from what the write in the other leaves. -/
theorem bytes_of_mirror {report report' : PassReport Feed Unit}
    (h : report' = { report with stream := report.stream.mirror }) :
    (report.result.map fun _ => report.bytes) =
      (report'.result.map fun _ => report'.bytes).map (List.map reverseBits) := by
  subst h
  have hbytes : report.bytes =
      ({ report with stream := report.stream.mirror } : PassReport Feed Unit).bytes.map
        reverseBits := by
    have hreverse : reverseBits ∘ reverseBits = id := funext reverseBits_reverseBits
    simp [PassReport.bytes, Feed.mirror, Writer.mirror, Sink.mirror, hreverse]
  rw [hbytes]
  cases report.result <;> rfl

/-- Decoding in one bit order is decoding the mirrored bytes in the other, and encoding in one bit
order gives the mirrored bytes of the other, with the same errors. -/
theorem mirrored_in_orders (c : Codec) (resolver : Option Resolver) :
    (∀ data : List UInt8, (c.inOrder .msb0).decode resolver data =
        (c.inOrder .lsb0).decode resolver (data.map reverseBits)) ∧
      (∀ tree : Field, (c.inOrder .msb0).encode resolver tree =
        ((c.inOrder .lsb0).encode resolver tree).map (List.map reverseBits)) ∧
      ∀ values : List Value, (c.inOrder .msb0).encodeValues resolver values =
        ((c.inOrder .lsb0).encodeValues resolver values).map (List.map reverseBits) := by
  refine ⟨fun data => ?_, fun tree => ?_, fun values => ?_⟩
  · have hread := read_mirror c resolver (.ofBytes data)
    rw [Source.mirror_ofBytes] at hread
    unfold decode
    rw [hread]
    rfl
  · have hwrite := writeTree_mirror c resolver tree .empty
    rw [Sink.mirror_empty] at hwrite
    exact bytes_of_mirror hwrite
  · have hwrite := write_mirror c resolver (values.map .value) .empty
    rw [Sink.mirror_empty] at hwrite
    exact bytes_of_mirror hwrite

end Codec

end RecordLayout
