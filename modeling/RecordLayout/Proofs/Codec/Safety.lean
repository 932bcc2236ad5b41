import RecordLayout.Proofs.Codec.Passes
import RecordLayout.Proofs.Table.Items
import RecordLayout.Proofs.Table.Passes
import RecordLayout.Proofs.Table.WellFormed

/-!
# Passes over compiled blocks are safe

The tables of a compiled block fit each other, and no pass over them finds that something is missing:
it looks up nothing that is not there, shifts no word by as many bits as it has, meets no structure
without an end and no custom type without a handler. It does what the codec does.
-/

namespace RecordLayout

namespace Block

/-- Reads a record over a block. -/
def read (b : Block) (ctx : PassContext) (source : Source) :
    EStateM.Result Stopped (WatchedState Reader) Field :=
  b.readRecord ctx ⟨⟨.ofSource source, .empty, []⟩, []⟩

/-- Writes items over a block. -/
def write (b : Block) (ctx : PassContext) (items : List Item) (sink : Sink) :
    EStateM.Result Stopped (WatchedState Feed) Unit :=
  b.writeRecord ctx ⟨⟨⟨.ofSink sink, items⟩, .empty, []⟩, []⟩

/-- Writes a tree over a block. -/
def writeTree (b : Block) (ctx : PassContext) (tree : Field) (sink : Sink) :
    EStateM.Result Stopped (WatchedState Feed) Unit :=
  match b.layTree tree with
  | .ok (items, _) => b.write ctx items sink
  | .error stopped => .error stopped ⟨⟨⟨.ofSink sink, []⟩, .empty, []⟩, []⟩

/-- Writes values over a block. -/
def writeValues (b : Block) (ctx : PassContext) (values : List Value) (sink : Sink) :
    EStateM.Result Stopped (WatchedState Feed) Unit :=
  b.write ctx (values.map .value) sink

end Block

namespace Codec

variable {l : Layout} {handlers : List CustomType} (h : l.Scoped handlers 0 [])
  (options : CodecOptions) (resolver : Option Resolver)
include h

/-- The passes over the tables of a block do what those over its layout do, without a fault. -/
theorem watches_read (source : Source) :
    Watches ((l.block handlers).read ⟨options, resolver⟩ source)
      ((⟨l, options⟩ : Codec).read resolver source) := by
  unfold Block.read
  rw [Block.readRecord_block _ h]
  exact (Decode.Watched.safe_record l).watches (Reader.inByte_ofSource source)

theorem watches_write (items : List Item) (sink : Sink) :
    Watches ((l.block handlers).write ⟨options, resolver⟩ items sink)
      ((⟨l, options⟩ : Codec).write resolver items sink) := by
  unfold Block.write
  rw [Block.writeRecord_block _ h]
  exact (Encode.Watched.safe_record l).watches (Writer.inByte_ofSink sink)

/-- A tree is laid out before it is written, by the tables as by the layout. -/
theorem watches_writeTree (tree : Field) (sink : Sink) :
    Watches ((l.block handlers).writeTree ⟨options, resolver⟩ tree sink)
      ((⟨l, options⟩ : Codec).writeTree resolver tree sink) := by
  unfold Block.writeTree writeTree
  rw [Block.layTree_block h]
  cases Item.ofTree l tree with
  | ok laid =>
    exact watches_write h options resolver laid.1 sink
  | error e =>
    exact ⟨rfl, rfl, rfl⟩

end Codec

/-- A compiled block is well formed. Whatever the options, the resolver, the source and the sink, a
pass over it reports what the codec reports, and so it never finds a fault. -/
theorem Codec.compiled_block_safe {options : CompileOptions} {source : String} {schema : Schema}
    (h : compile options source = .ok schema) :
    let b := schema.layout.block options.customs
    b.WellFormed ∧
      ∀ (codecOptions : CodecOptions) (resolver : Option Resolver),
        let c : Codec := ⟨schema.layout, codecOptions⟩
        let ctx := c.context resolver
        (∀ source : Source, Watches (b.read ctx source) (c.read resolver source) ∧
          ∀ f, resultOf (b.read ctx source) ≠ .error (.fault f)) ∧
        (∀ (tree : Field) (sink : Sink),
          Watches (b.writeTree ctx tree sink) (c.writeTree resolver tree sink) ∧
            ∀ f, resultOf (b.writeTree ctx tree sink) ≠ .error (.fault f)) ∧
        ∀ (values : List Value) (sink : Sink),
          Watches (b.writeValues ctx values sink) (c.writeValues resolver values sink) ∧
            ∀ f, resultOf (b.writeValues ctx values sink) ≠ .error (.fault f) := by
  have hscoped := compile_scoped h
  intro b
  refine ⟨Block.wellFormed_block hscoped, fun codecOptions resolver => ⟨fun source => ?_,
    fun tree sink => ?_, fun values sink => ?_⟩⟩
  · have hwatches := watches_read hscoped codecOptions resolver source
    exact ⟨hwatches, hwatches.no_fault⟩
  · have hwatches := watches_writeTree hscoped codecOptions resolver tree sink
    exact ⟨hwatches, hwatches.no_fault⟩
  · have hwatches := watches_write hscoped codecOptions resolver (values.map .value) sink
    exact ⟨hwatches, hwatches.no_fault⟩

/-- In the sample the opening brace has its closing brace, and reading finds no fault. -/
theorem Codec.compiled_block_safe_sample :
    compile {} sampleSource = .ok ⟨sampleSource, sampleLayout⟩ ∧
      (∃ j, (sampleLayout.block []).Pair 1 j) ∧
      ∀ f, resultOf ((sampleLayout.block []).read ⟨{}, none⟩
        (.ofBytes [2, 5, 7, 0x80, 0, 0, 0, 1])) ≠ .error (.fault f) := by
  have hsafe := Codec.compiled_block_safe compile_sample
  refine ⟨compile_sample, hsafe.1.opening 1 _ rfl rfl, ?_⟩
  exact ((hsafe.2 {} none).1 (.ofBytes [2, 5, 7, 0x80, 0, 0, 0, 1])).2

end RecordLayout
