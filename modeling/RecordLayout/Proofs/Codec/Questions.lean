import RecordLayout.Proofs.Codec.Expressions
import RecordLayout.Proofs.Watched.Abreast

/-!
# The questions of a record

A record that is read and written again asks the same questions twice.
-/

namespace RecordLayout.Codec

variable {c : Codec} {resolver : Option Resolver} {data : List UInt8} {d : Decoded}

/-- A strict read that succeeds and the write of its tree go abreast. -/
theorem exists_abreast (hnumbered : c.layout.Numbered) (hcustom : c.layout.customUses = [])
    (hstrict : c.options.lenient = false) (hdecode : c.decode resolver data = .ok d) :
    ∃ items r w, Item.ofTree c.layout d.tree = .ok (items, true) ∧
      c.watchedRead resolver (.ofBytes data) = .ok d.tree r ∧
      c.watchedWrite resolver items .empty = .ok () w ∧
      evaluationsOf w.past = evaluationsOf r.past ∧ w.pass.asked = r.pass.asked := by
  obtain ⟨fields, flow, s, hfields, rfl⟩ := decode_eq_ok_iff.mp hdecode
  obtain ⟨pieces, place, hspells, -, hafter⟩ :=
    Decode.fields_sound hcustom (at_readStart data) hfields
  cases place with
  | none =>
    have hlenient := hspells.holdsValue_of_none.1
    rw [show (c.context resolver).options = c.options from rfl, hstrict] at hlenient
    cases hlenient
  | some p =>
    obtain ⟨rfl, -⟩ := hafter
    obtain ⟨whole, hlaid, hwhole⟩ := hspells.laid hnumbered
    cases hwhole rfl
    have hstart : Abreast (c.context resolver) ⟨readStart data, []⟩
        ⟨writeStart (pieces.flatMap Piece.items) .empty, []⟩ :=
      ⟨⟨.start, at_readStart data, at_writeStart _ _ rfl rfl⟩, rfl, rfl⟩
    obtain ⟨r, hread, -, -⟩ := (Decode.Watched.safe_fields c.layout).eq_ok
      (t := ⟨readStart data, []⟩) hstart.inByte_reader hfields
    obtain ⟨w, hwrite, hitems, habreast⟩ :=
      again_fields hcustom hstrict hstart hread hlaid (List.append_nil _).symm
    obtain ⟨q, -, hat⟩ := habreast.place
    obtain ⟨writer, hfinish, -⟩ := Writer.finish_of_ready hat.ready
    obtain ⟨w', hfinish', -, -⟩ := (Encode.Watched.safe_onWriter (Safe.plainly
      Writer.retains_finish)).eq_ok habreast.inByte_writer (Encode.onWriter_of_ok hfinish)
    have hquiet : Logs (c.context resolver) 0 [] w w' :=
      Encode.Watched.evaluating_onWriter _ w () w' hfinish'
    refine ⟨_, r, w', hlaid, (bind_of_ok hread).trans rfl, ?_, ?_, ?_⟩
    · have hremaining : Encode.Watched.remaining w = .ok [] w := by
        rw [← hitems]
        rfl
      exact (bind_of_ok hwrite).trans ((bind_of_ok hremaining).trans hfinish')
    · rw [hquiet.evaluations, habreast.evaluations]
      exact List.append_nil _
    · rw [hquiet.asked, habreast.asked]
      exact List.append_nil _

/-- Under strict options and without custom types, the write of a tree that was read from some bytes
succeeds and evaluates what the read evaluated: the same expressions of the same declarations in the
same order, each with the same latest numbers and the same counter, whatever bits stand in between.
So both passes put the same questions to the resolver: every external name together with the
expression it occurs in, one for one. -/
theorem asks_again {options : CompileOptions} {source : String} {schema : Schema}
    (hcompile : compile options source = .ok schema) (hcustom : schema.layout.customUses = [])
    {codecOptions : CodecOptions} (hstrict : codecOptions.lenient = false)
    (resolver : Option Resolver) {data : List UInt8} {d : Decoded}
    (hdecode : decode ⟨schema.layout, codecOptions⟩ resolver data = .ok d) :
    let c : Codec := ⟨schema.layout, codecOptions⟩
    let read := c.read resolver (.ofBytes data)
    let write := c.writeTree resolver d.tree .empty
    ∃ items, Item.ofTree c.layout d.tree = .ok (items, true) ∧ write.result = .ok () ∧
      Watches (c.watchedRead resolver (.ofBytes data)) read ∧
      Watches (c.watchedWrite resolver items .empty) write ∧
      evaluationsOf (stateOf (c.watchedWrite resolver items .empty)).past =
        evaluationsOf (stateOf (c.watchedRead resolver (.ofBytes data))).past ∧
      write.asked = read.asked := by
  intro c read write
  obtain ⟨items, r, w, hlaid, hread, hwrite, hevaluations, hasked⟩ :=
    exists_abreast (c := c) (compile_shape hcompile).1 hcustom hstrict hdecode
  have hwatchedRead : Watches (c.watchedRead resolver (.ofBytes data)) read :=
    (Decode.Watched.safe_record c.layout).watches (Reader.inByte_ofSource _)
  have hwritten : write = c.write resolver items .empty := by
    simp only [write, writeTree, hlaid]
  have hwatchedWrite : Watches (c.watchedWrite resolver items .empty) write := by
    rw [hwritten]
    exact (Encode.Watched.safe_record c.layout).watches (Writer.inByte_ofSink _)
  refine ⟨items, hlaid, ?_, hwatchedRead, hwatchedWrite, ?_, ?_⟩
  · have hresult := hwatchedWrite.result
    rw [hwrite] at hresult
    cases hwriteResult : write.result with
    | ok u => rfl
    | error e =>
      rw [hwriteResult] at hresult
      cases hresult
  · rw [hwrite, hread]
    exact hevaluations
  · rw [← hwatchedWrite.asked, ← hwatchedRead.asked, hwrite, hread]
    exact hasked

def askingSource : String := "bit:3 b; byte [$k + $$] r; floatj x;"

/-- The length of the array depends on the resolver and on the bytes so far. -/
def askingExpr : Expr := .binary .add (.external "k") .counter

def askingLayout : Layout :=
  .item ⟨0, some ⟨"b", "b", 0⟩, .big, ⟨0, 1, 1⟩⟩ (.value (.bit (.const 3)) none)
    (.item ⟨1, some ⟨"r", "r", 1⟩, .big, ⟨9, 1, 10⟩⟩
      (.value (.fixed .byte) (some (.computed askingExpr)))
      (.item ⟨2, some ⟨"x", "x", 2⟩, .big, ⟨27, 1, 28⟩⟩ (.value (.fixed .float) none) .done))

theorem compile_asking : compile {} askingSource = .ok ⟨askingSource, askingLayout⟩ := by cbv

/-- One byte more than have begun. -/
def askedResolver : Resolver := fun name _ => if name = "k" then some 1 else none

/-- The write of a record that was read asks for the length behind three bits, in the first byte. -/
theorem asks_again_behind_bits :
    ∃ d, decode ⟨askingLayout, {}⟩ (some askedResolver) [0xff, 1, 2, 0, 0, 0, 0] = .ok d ∧
      (writeTree ⟨askingLayout, {}⟩ (some askedResolver) d.tree .empty).asked =
        [("k", askingExpr)] := by
  have hstrict : ({} : CodecOptions).lenient = false := rfl
  have hdecode : decode ⟨askingLayout, {}⟩ (some askedResolver) [0xff, 1, 2, 0, 0, 0, 0] =
      .ok ⟨.unnamed (.struct [.new (some ⟨"b", "b", 0⟩) (.bit 7),
        .new (some ⟨"r", "r", 1⟩) (.bytes [63, 64]), .new (some ⟨"x", "x", 2⟩) (.float ⟨0⟩)]), 7⟩ := by
    cbv
  obtain ⟨items, -, -, -, -, -, hasked⟩ :=
    asks_again compile_asking rfl hstrict (some askedResolver) hdecode
  refine ⟨_, hdecode, hasked.trans ?_⟩
  cbv

end RecordLayout.Codec
