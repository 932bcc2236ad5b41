import RecordLayout.Codec
import RecordLayout.Proofs.Pass.ReadState
import RecordLayout.Proofs.Pass.WriteState

/-!
# Codecs and their passes

When a codec succeeds, in terms of the pass over its layout.
-/

namespace RecordLayout

/-- A report of success is the report of a pass that succeeds. -/
theorem PassM.report_result_eq_ok_iff {δ α : Type} {m : PassM δ α} {stream : δ} {x : α} :
    (m.report stream).result = .ok x ↔
      ∃ s, m ⟨stream, .empty, []⟩ = .ok x s ∧ m.report stream = ⟨.ok x, s.stream, s.asked⟩ := by
  unfold PassM.report
  cases m ⟨stream, .empty, []⟩ with
  | ok y s =>
    constructor
    · intro h
      cases h
      exact ⟨s, rfl, rfl⟩
    · rintro ⟨s', h, -⟩
      cases h
      rfl
  | error e s =>
    constructor
    · intro h
      cases h
    · rintro ⟨s', h, -⟩
      cases h

theorem Decode.record_eq_ok_iff {ctx : PassContext} {l : Layout} {s s' : PassState Reader}
    {tree : Field} :
    Decode.record ctx l s = .ok tree s' ↔
      ∃ fields flow, Decode.fields ctx l s = .ok (fields, flow) s' ∧
        tree = .unnamed (.struct fields) := by
  constructor
  · intro h
    obtain ⟨⟨fields, flow⟩, s₁, hfields, hpure⟩ := bind_eq_ok.mp h
    cases hpure
    exact ⟨fields, flow, hfields, rfl⟩
  · rintro ⟨fields, flow, hfields, rfl⟩
    exact (bind_of_ok hfields).trans rfl

/-- A record is written if its pass succeeds, no item is left, and the sink passes on what it
holds. -/
theorem Encode.record_eq_ok_iff {ctx : PassContext} {l : Layout} {s s' : PassState Feed} :
    Encode.record ctx l s = .ok () s' ↔
      ∃ flow s₁, Encode.fields ctx l s = .ok flow s₁ ∧ s₁.stream.items = [] ∧
        ∃ w, Writer.finish s₁.stream.writer = .ok () w ∧
          s' = { s₁ with stream := { s₁.stream with writer := w } } := by
  have hremaining : ∀ s, Encode.remaining s = .ok s.stream.items s := fun _ => rfl
  constructor
  · intro h
    obtain ⟨flow, s₁, hfields, h⟩ := bind_eq_ok.mp h
    refine ⟨flow, s₁, hfields, ?_⟩
    rw [bind_of_ok (hremaining s₁)] at h
    split at h
    · rename_i hempty
      refine ⟨List.isEmpty_iff.mp hempty, ?_⟩
      simp only [onWriter, PassM.onStream] at h
      cases hfinish : Writer.finish s₁.stream.writer with
      | ok u w =>
        rw [hfinish] at h
        cases h
        exact ⟨w, rfl, rfl⟩
      | error e w =>
        rw [hfinish] at h
        cases h
    · cases h
  · rintro ⟨flow, s₁, hfields, hempty, w, hfinish, rfl⟩
    refine (bind_of_ok hfields).trans ((bind_of_ok (hremaining s₁)).trans ?_)
    rw [hempty]
    simp only [List.isEmpty_nil, if_true, onWriter, PassM.onStream, hfinish]

namespace Codec

variable {c : Codec} {resolver : Option Resolver} {data out : List UInt8} {d : Decoded}
  {tree : Field} {items : List Item} {sink : Sink}

/-- The state of a read pass at the front of some bytes. -/
def readStart (data : List UInt8) : PassState Reader := ⟨.ofSource (.ofBytes data), .empty, []⟩

/-- The state of a write pass before the first item. -/
def writeStart (items : List Item) (sink : Sink) : PassState Feed :=
  ⟨⟨.ofSink sink, items⟩, .empty, []⟩

theorem at_readStart (data : List UInt8) : Decode.At .start (readStart data) :=
  ⟨rfl, rfl, Reader.sound_ofSource _, rfl⟩

theorem at_writeStart (items : List Item) (sink : Sink) (hlimit : sink.limit = none)
    (hflush : sink.flushFailure = none) :
    Encode.At (c.context resolver) .start (writeStart items sink) :=
  ⟨rfl, rfl, Writer.ready_ofSink hlimit hflush _⟩

/-- What a read reports whose pass succeeds. -/
theorem read_of_fields {fields : List Field} {flow : Flow} {s : PassState Reader}
    (h : Decode.fields (c.context resolver) c.layout (readStart data) = .ok (fields, flow) s) :
    c.read resolver (.ofBytes data) = ⟨.ok (.unnamed (.struct fields)), s.stream, s.asked⟩ := by
  have hrecord := Decode.record_eq_ok_iff.mpr ⟨fields, flow, h, rfl⟩
  rw [readStart] at hrecord
  rw [read, PassM.report, hrecord]

/-- A decoding succeeds exactly if the fields are read, and consumes what was fetched for them. -/
theorem decode_eq_ok_iff :
    c.decode resolver data = .ok d ↔
      ∃ fields flow s, Decode.fields (c.context resolver) c.layout (readStart data) =
          .ok (fields, flow) s ∧
        d = ⟨.unnamed (.struct fields), s.stream.fetched⟩ := by
  simp only [decode]
  constructor
  · intro h
    cases hresult : (c.read resolver (.ofBytes data)).result with
    | error e =>
      rw [hresult] at h
      cases h
    | ok tree =>
      obtain ⟨s, hrecord, hreport⟩ := PassM.report_result_eq_ok_iff.mp hresult
      obtain ⟨fields, flow, hfields, rfl⟩ := Decode.record_eq_ok_iff.mp hrecord
      have hread : c.read resolver (.ofBytes data) =
          ⟨.ok (.unnamed (.struct fields)), s.stream, s.asked⟩ := hreport
      rw [hread] at h
      cases h
      exact ⟨fields, flow, s, hfields, rfl⟩
  · rintro ⟨fields, flow, s, hfields, rfl⟩
    rw [read_of_fields hfields]
    rfl

/-- A write succeeds exactly if the fields take all items and the last byte is sent. -/
theorem write_eq_ok_iff {u : Unit} :
    (c.write resolver items sink).result = .ok u ↔
      ∃ flow s, Encode.fields (c.context resolver) c.layout (writeStart items sink) =
          .ok flow s ∧ s.stream.items = [] ∧
        ∃ w, Writer.finish s.stream.writer = .ok () w ∧
          (c.write resolver items sink).bytes = w.sink.received.toList := by
  unfold write
  constructor
  · intro h
    obtain ⟨s, hrecord, hreport⟩ := PassM.report_result_eq_ok_iff.mp h
    obtain ⟨flow, s₁, hfields, hempty, w, hfinish, rfl⟩ := Encode.record_eq_ok_iff.mp hrecord
    refine ⟨flow, s₁, hfields, hempty, w, hfinish, ?_⟩
    rw [hreport]
    rfl
  · rintro ⟨flow, s, hfields, hempty, w, hfinish, -⟩
    have hrecord := Encode.record_eq_ok_iff.mpr ⟨flow, s, hfields, hempty, w, hfinish, rfl⟩
    rw [writeStart] at hrecord
    simp only [PassM.report, hrecord]

/-- A tree is written by way of its items. -/
theorem writeTree_eq_ok_iff {u : Unit} :
    (c.writeTree resolver tree sink).result = .ok u ↔
      ∃ items whole, Item.ofTree c.layout tree = .ok (items, whole) ∧
        (c.write resolver items sink).result = .ok u := by
  unfold writeTree
  cases Item.ofTree c.layout tree with
  | error e => simp
  | ok laid =>
    constructor
    · exact fun h => ⟨laid.1, laid.2, rfl, h⟩
    · rintro ⟨items, whole, heq, h⟩
      cases heq
      exact h

/-- What a write of items gives when it succeeds. -/
theorem write_map_eq_ok_iff :
    ((c.write resolver items .empty).result.map fun _ => (c.write resolver items .empty).bytes) =
        .ok out ↔
      ∃ flow s w, Encode.fields (c.context resolver) c.layout (writeStart items .empty) =
          .ok flow s ∧ s.stream.items = [] ∧ Writer.finish s.stream.writer = .ok () w ∧
        out = w.sink.received.toList := by
  constructor
  · intro h
    cases hresult : (c.write resolver items .empty).result with
    | error e =>
      rw [hresult] at h
      cases h
    | ok u =>
      rw [hresult] at h
      cases h
      obtain ⟨flow, s, hfields, hempty, w, hfinish, hbytes⟩ := write_eq_ok_iff.mp hresult
      exact ⟨flow, s, w, hfields, hempty, hfinish, hbytes⟩
  · rintro ⟨flow, s, w, hfields, hempty, hfinish, rfl⟩
    have hrecord := Encode.record_eq_ok_iff.mpr ⟨flow, s, hfields, hempty, w, hfinish, rfl⟩
    rw [writeStart] at hrecord
    simp only [write, PassM.report, hrecord]
    rfl

/-- An encoding succeeds exactly if the tree has items, the fields take them all and the end is
written. -/
theorem encode_eq_ok_iff :
    c.encode resolver tree = .ok out ↔
      ∃ items whole flow s w, Item.ofTree c.layout tree = .ok (items, whole) ∧
        Encode.fields (c.context resolver) c.layout (writeStart items .empty) = .ok flow s ∧
        s.stream.items = [] ∧ Writer.finish s.stream.writer = .ok () w ∧
        out = w.sink.received.toList := by
  simp only [encode, writeTree]
  constructor
  · intro h
    cases hlaid : Item.ofTree c.layout tree with
    | error e =>
      rw [hlaid] at h
      cases h
    | ok laid =>
      obtain ⟨items, whole⟩ := laid
      rw [hlaid] at h
      obtain ⟨flow, s, w, hwrite⟩ := write_map_eq_ok_iff.mp h
      exact ⟨items, whole, flow, s, w, rfl, hwrite⟩
  · rintro ⟨items, whole, flow, s, w, hlaid, hwrite⟩
    rw [hlaid]
    exact write_map_eq_ok_iff.mpr ⟨flow, s, w, hwrite⟩

/-- A list of values is encoded as the items that it is. -/
theorem encodeValues_eq_ok_iff {values : List Value} :
    c.encodeValues resolver values = .ok out ↔
      ∃ flow s w, Encode.fields (c.context resolver) c.layout
          (writeStart (values.map .value) .empty) = .ok flow s ∧
        s.stream.items = [] ∧ Writer.finish s.stream.writer = .ok () w ∧
        out = w.sink.received.toList :=
  write_map_eq_ok_iff

/-! ## A sample -/

def sampleSource : String := "byte n; s [n] { bit:3 b; align; } floatj x; byte [_] r;"

/-- A layout with an array of structures, a float, and an array that goes to the end. -/
def sampleLayout : Layout :=
  .item ⟨0, some ⟨"n", "n", 0⟩, .big, ⟨0, 1, 1⟩⟩ (.value (.fixed .byte) none)
    (.group ⟨1, some ⟨"s", "s", 1⟩, .big, ⟨8, 1, 9⟩⟩ (some (.computed (.field ⟨"n", "n", 0⟩)))
      (.item ⟨2, some ⟨"s.b", "b", 2⟩, .big, ⟨16, 1, 17⟩⟩ (.value (.bit (.const 3)) none)
        (.item ⟨3, none, .big, ⟨25, 1, 26⟩⟩ (.align (.const 1)) .done))
      ⟨32, 1, 33⟩
      (.item ⟨5, some ⟨"x", "x", 5⟩, .big, ⟨34, 1, 35⟩⟩ (.value (.fixed .float) none)
        (.item ⟨6, some ⟨"r", "r", 6⟩, .big, ⟨44, 1, 45⟩⟩
          (.value (.fixed .byte) (some .unbounded)) .done)))

theorem compile_sample : compile {} sampleSource = .ok ⟨sampleSource, sampleLayout⟩ := by cbv

/-- A tree of the sample with two structures. -/
def sampleTree (n b b' x r : Value) : Field :=
  .unnamed (.struct [
    .new (some ⟨"n", "n", 0⟩) n,
    .new (some ⟨"s", "s", 1⟩) (.list [
      .struct [.new (some ⟨"s.b", "b", 2⟩) b],
      .struct [.new (some ⟨"s.b", "b", 2⟩) b']]),
    .new (some ⟨"x", "x", 5⟩) x,
    .new (some ⟨"r", "r", 6⟩) r])

end Codec

end RecordLayout
