import RecordLayout.Proofs.Codec.Passes
import RecordLayout.Proofs.Layout.Scoping
import RecordLayout.Proofs.Watched.NodesRead
import RecordLayout.Proofs.Watched.NodesWritten
import RecordLayout.Proofs.Watched.SeeingReads
import RecordLayout.Proofs.Watched.SeeingWrites

/-!
# What the expressions of a record see

Reading and writing under watch gives the reports that reading and writing give, together with the
past of the pass. Every expression in that past saw the latest nodes, and the nodes are those of the
record.
-/

namespace RecordLayout

/-- Every expression evaluated in a past saw the nodes of the past up to then. -/
def Layout.SawLatest (l : Layout) (past : List Event) : Prop :=
  ∀ index e env earlier, .evaluated index e env :: earlier <:+ past → l.Sees index e env earlier

namespace Codec

/-- Reads a record under watch. -/
def watchedRead (c : Codec) (resolver : Option Resolver) (source : Source) :
    EStateM.Result Stopped (WatchedState Reader) Field :=
  Decode.Watched.record (c.context resolver) c.layout ⟨⟨.ofSource source, .empty, []⟩, []⟩

/-- Writes items under watch. -/
def watchedWrite (c : Codec) (resolver : Option Resolver) (items : List Item) (sink : Sink) :
    EStateM.Result Stopped (WatchedState Feed) Unit :=
  Encode.Watched.record (c.context resolver) c.layout ⟨⟨⟨.ofSink sink, items⟩, .empty, []⟩, []⟩

/-- A pass over a compiled layout evaluates its expressions with the latest nodes in document order:
those read, those written in the form of their types, and those computed. Only where there is no node
a field has no value; and there is one, from the current element, if every structure array around the
field is also around the expression. The nodes are those of the tree that is read. A write that
succeeds goes through the layout in order and gives the node of a declaration from the item that the
declaration took, at the width that was evaluated for it, or from its expression. -/
theorem expressions_see_latest_nodes {options : CompileOptions} {source : String} {schema : Schema}
    (h : compile options source = .ok schema) (codecOptions : CodecOptions)
    (resolver : Option Resolver) :
    let l := schema.layout
    let c : Codec := ⟨l, codecOptions⟩
    (∀ source : Source,
      let run := c.watchedRead resolver source
      Watches run (c.read resolver source) ∧ l.SawLatest (stateOf run).past ∧
        ∀ tree, resultOf run = .ok tree →
          integersIn l.nameAt (nodesOf (stateOf run).past) = integers [tree]) ∧
    ∀ (items : List Item) (sink : Sink),
      let run := c.watchedWrite resolver items sink
      Watches run (c.write resolver items sink) ∧ l.SawLatest (stateOf run).past ∧
        (resultOf run = .ok () →
          ∃ flow, l.Filled (c.context resolver) items (stateOf run).past.reverse flow) := by
  have hscoped := compile_scoped h
  intro l c
  refine ⟨fun source => ⟨?_, fun index e env earlier hsuffix => ?_, fun tree htree => ?_⟩,
    fun items sink => ⟨?_, fun index e env earlier hsuffix => ?_, fun hdone => ?_⟩⟩
  · exact (Decode.Watched.safe_record l).watches (Reader.inByte_ofSource source)
  · exact (Decode.Watched.faithful_record hscoped _).sees hsuffix
  · exact Decode.Watched.integersIn_record hscoped htree
  · exact (Encode.Watched.safe_record l).watches (Writer.inByte_ofSink sink)
  · exact (Encode.Watched.faithful_record hscoped _).sees hsuffix
  · exact Encode.Watched.filled_record hdone

/-- The length of the array in the sample is the number in front of it. -/
theorem expressions_see_latest_nodes_sample :
    compile {} sampleSource = .ok ⟨sampleSource, sampleLayout⟩ ∧
      sampleLayout.Sees 1 (.field ⟨"n", "n", 0⟩) ⟨⟨[(0, 2)]⟩, 1, none⟩ [.node 0 (.byte 2)] := by
  refine ⟨compile_sample, ?_⟩
  have hsees := ((expressions_see_latest_nodes compile_sample {} none).1 (.ofBytes [2])).2.1
  exact hsees 1 (.field ⟨"n", "n", 0⟩) ⟨⟨[(0, 2)]⟩, 1, none⟩ [.node 0 (.byte 2)]
    ⟨[.element 1], by cbv⟩

end Codec

end RecordLayout
