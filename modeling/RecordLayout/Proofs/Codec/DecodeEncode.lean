import RecordLayout.Proofs.Codec.Passes
import RecordLayout.Proofs.Number.Widening
import RecordLayout.Proofs.Pass.ReadSound
import RecordLayout.Proofs.Pass.WriteComplete

/-!
# Writing what was read

A tree that was read from some data is written again. The values give back the bits they were read
from, and whatever else was read over comes back as zeros.
-/

namespace RecordLayout

namespace Piece

theorem length_written (e : Piece) : e.written.length = e.keptBits.length := by
  cases e <;> simp [written, keptBits]

theorem written_of_blank {e : Piece} (h : e.Blank) : e.written = e.keptBits := by
  cases e with
  | passed bits => exact (List.eq_replicate_of_mem h).symm
  | _ => rfl

theorem length_flatMap_written (pieces : List Piece) :
    (pieces.flatMap written).length = (pieces.flatMap keptBits).length := by
  induction pieces with
  | nil => rfl
  | cons e pieces ih => simp [length_written, ih]

theorem flatMap_written_of_blank {pieces : List Piece} (h : ∀ e ∈ pieces, e.Blank) :
    pieces.flatMap written = pieces.flatMap keptBits := by
  induction pieces with
  | nil => rfl
  | cons e pieces ih =>
    rw [List.flatMap_cons, List.flatMap_cons, written_of_blank (h e List.mem_cons_self),
      ih fun e he => h e (List.mem_cons_of_mem _ he)]

theorem lostBits_of_blank {pieces : List Piece} (h : ∀ e ∈ pieces, e.Blank) :
    ∀ b ∈ pieces.flatMap lostBits, b = false := by
  intro b hb
  obtain ⟨e, he, hb⟩ := List.mem_flatMap.mp hb
  have hblank := h e he
  cases e with
  | lost bits => exact hblank b hb
  | _ => cases hb

end Piece

namespace Codec

/-- How a record that was read lies in the data: its pieces follow one another from the first bit
on, and less than a byte is left over of the bytes that were taken for it. -/
structure Transcript (c : Codec) (resolver : Option Resolver) (data : List UInt8) (d : Decoded)
    (pieces : List Piece) (rest : List Bool) : Prop where
  spells : ∃ fields place, d.tree = .unnamed (.struct fields) ∧
    c.layout.Spells (c.context resolver) .start fields pieces place
  bits : c.options.bitOrder.stream (data.take d.consumed) = pieces.flatMap Piece.bits ++ rest
  short : rest.length < 8
  consumed : d.consumed ≤ data.length

variable {c : Codec} {resolver : Option Resolver} {data : List UInt8} {d : Decoded}
  {pieces : List Piece} {rest : List Bool}

/-- Whatever is decoded has a transcript. -/
theorem exists_transcript (hcustom : c.layout.customUses = [])
    (h : c.decode resolver data = .ok d) :
    ∃ pieces rest, c.Transcript resolver data d pieces rest := by
  obtain ⟨fields, flow, s, hfields, rfl⟩ := decode_eq_ok_iff.mp h
  obtain ⟨pieces, place, hspells, hadvances, -⟩ :=
    Decode.fields_sound hcustom (at_readStart data) hfields
  have hfront := hadvances.front
  have hoffset := hadvances.consumes.offset
  have hremaining := hadvances.consumes.remaining
  have hsound := hadvances.consumes.sound
  have hfetched := hsound.fetched_eq
  simp only [readStart, Reader.offset_ofSource, Nat.zero_add] at hoffset
  simp only [readStart, Reader.ahead_ofSource, Source.bytes_ofBytes] at hfront
  have hall := congrArg List.length hfront
  rw [BitOrder.length_stream, List.length_append, Reader.length_ahead, Reader.remaining_eq] at hall
  have hadd := hsound.offset_add
  refine ⟨pieces, (s.stream.ahead c.options.bitOrder).take
      (8 * s.stream.fetched - (pieces.flatMap Piece.bits).length),
    ⟨⟨fields, place, rfl, hspells⟩, ?_, ?_, ?_⟩⟩
  · rw [BitOrder.stream_take]
    refine (congrArg (List.take (8 * s.stream.fetched)) hfront).trans ?_
    rw [List.take_append, List.take_of_length_le (by omega)]
    rfl
  · rw [List.length_take]
    omega
  · show s.stream.fetched ≤ data.length
    omega

/-- The tree of a transcript is written as its pieces are, and the last byte is filled up with
zeros. -/
theorem Transcript.encode {options : CompileOptions} {source : String} {schema : Schema}
    (hcompile : compile options source = .ok schema) (hlayout : c.layout = schema.layout)
    (hfloats : ∀ x ∈ d.tree.value.floats, x.widen.narrow = x)
    (h : c.Transcript resolver data d pieces rest) :
    ∃ out, c.encode resolver d.tree = .ok out ∧
      c.options.bitOrder.stream out = pieces.flatMap Piece.written ++
        List.replicate (Bits.toByte (pieces.flatMap Piece.keptBits).length) false := by
  obtain ⟨hnumbered, hterminal⟩ := compile_shape hcompile
  rw [← hlayout] at hnumbered hterminal
  obtain ⟨fields, place, htree, hspells⟩ := h.spells
  rw [htree] at hfloats ⊢
  obtain ⟨whole, hlaid, -⟩ := hspells.laid hnumbered
  obtain ⟨flow, s, hfields, hputs, -⟩ := Encode.fields_of_spells hterminal hspells
    (hspells.survive hfloats) (at_writeStart (pieces.flatMap Piece.items) .empty rfl rfl)
    (List.append_nil _).symm (fun _ => rfl)
  have hempty : s.stream.items = [] := by
    have hitems := hputs.items
    simp only [writeStart] at hitems
    exact List.self_eq_append_right.mp hitems
  obtain ⟨w, hfinish, hstream⟩ := Writer.finish_of_ready hputs.adds.ready
  refine ⟨w.sink.received.toList,
    encode_eq_ok_iff.mpr ⟨_, whole, flow, s, w, hlaid, hfields, hempty, hfinish, rfl⟩, ?_⟩
  have hwritten : s.stream.writer.written c.options.bitOrder = pieces.flatMap Piece.written :=
    hputs.adds.written
  rw [← Piece.length_flatMap_written, ← hwritten]
  exact hstream

/-- The pieces and the rest are all bits of the bytes that were consumed. -/
theorem Transcript.length (h : c.Transcript resolver data d pieces rest) :
    (pieces.flatMap Piece.bits).length + rest.length = 8 * d.consumed := by
  have hlen := congrArg List.length h.bits
  rw [BitOrder.length_stream, List.length_take, Nat.min_eq_left h.consumed,
    List.length_append] at hlen
  exact hlen.symm

/-- Nothing is lost of a record that is read to its end. -/
theorem Transcript.lostBits_of_strict (h : c.Transcript resolver data d pieces rest)
    (hstrict : c.options.lenient = false) : pieces.flatMap Piece.lostBits = [] := by
  obtain ⟨fields, place, -, hspells⟩ := h.spells
  cases place with
  | some p => exact hspells.lostLast.2 rfl
  | none =>
    have hlenient : c.options.lenient = true := hspells.holdsValue_of_none.1
    rw [hstrict] at hlenient
    cases hlenient

theorem Transcript.bits_eq (h : c.Transcript resolver data d pieces rest) :
    pieces.flatMap Piece.bits =
      pieces.flatMap Piece.keptBits ++ pieces.flatMap Piece.lostBits := by
  obtain ⟨fields, place, -, hspells⟩ := h.spells
  exact hspells.lostLast.1

/-- A record that was read is written with as many bytes as were taken for it. Its values have the
bits they were read from, and all other bits are zero; so the bytes are the same if these bits were
zero. -/
theorem encode_decoded {options : CompileOptions} {source : String} {schema : Schema}
    (hcompile : compile options source = .ok schema) (hlayout : c.layout = schema.layout)
    (hcustom : schema.layout.customUses = []) (hstrict : c.options.lenient = false)
    (hdecode : c.decode resolver data = .ok d)
    (hfloats : ∀ x ∈ d.tree.value.floats, x.widen.narrow = x) :
    ∃ out, c.encode resolver d.tree = .ok out ∧ out.length = d.consumed ∧
      (∃ pieces rest, c.Transcript resolver data d pieces rest) ∧
      ∀ pieces rest, c.Transcript resolver data d pieces rest →
        c.options.bitOrder.stream out =
          pieces.flatMap Piece.written ++ List.replicate rest.length false ∧
        ((∀ e ∈ pieces, e.Blank) → (∀ b ∈ rest, b = false) → out = data.take d.consumed) := by
  obtain ⟨pieces, rest, h⟩ := exists_transcript (hlayout ▸ hcustom) hdecode
  obtain ⟨out, hencode, hout⟩ := h.encode hcompile hlayout hfloats
  have key : ∀ pieces rest, c.Transcript resolver data d pieces rest →
      c.options.bitOrder.stream out =
        pieces.flatMap Piece.written ++ List.replicate rest.length false := by
    intro pieces rest h
    obtain ⟨out', hencode', hout'⟩ := h.encode hcompile hlayout hfloats
    cases hencode.symm.trans hencode'
    have hkept := h.bits_eq
    rw [h.lostBits_of_strict hstrict, List.append_nil] at hkept
    have hlen := h.length
    have hshort := h.short
    rw [hout', ← hkept, show Bits.toByte (pieces.flatMap Piece.bits).length = rest.length by
      simp only [Bits.toByte]; omega]
  refine ⟨out, hencode, ?_, ⟨pieces, rest, h⟩, fun pieces rest h => ⟨key pieces rest h, ?_⟩⟩
  · have hlen := congrArg List.length (key pieces rest h)
    have hkept := congrArg List.length h.bits_eq
    rw [h.lostBits_of_strict hstrict, List.append_nil] at hkept
    rw [BitOrder.length_stream, List.length_append, Piece.length_flatMap_written, ← hkept,
      List.length_replicate, h.length] at hlen
    omega
  · intro hblank hrest
    apply @BitOrder.stream_inj c.options.bitOrder
    rw [key pieces rest h, h.bits, h.bits_eq, h.lostBits_of_strict hstrict, List.append_nil,
      Piece.flatMap_written_of_blank hblank, ← List.eq_replicate_of_mem hrest]

/-- The tree of the sample that holds the number 1.5. -/
def sampleDecoded : Decoded :=
  ⟨sampleTree (.byte 2) (.bit 5) (.bit 7) (.float ⟨0x3fc00000⟩) (.bytes [1, 9]), 9⟩

/-- Ones that an alignment passed over come back as zeros. -/
theorem encode_decoded_sample :
    ∃ out, encode ⟨sampleLayout, {}⟩ none sampleDecoded.tree = .ok out ∧ out.length = 9 ∧
      ∃ pieces rest, Transcript ⟨sampleLayout, {}⟩ none [2, 5, 255, 0x3f, 0xc0, 0, 0, 1, 9]
        sampleDecoded pieces rest := by
  have hdecode : decode ⟨sampleLayout, {}⟩ none [2, 5, 255, 0x3f, 0xc0, 0, 0, 1, 9] =
      .ok sampleDecoded := by cbv
  have hfloats : ∀ x ∈ sampleDecoded.tree.value.floats, x.widen.narrow = x := by
    intro x hx
    have hall : sampleDecoded.tree.value.floats = [⟨0x3fc00000⟩] := rfl
    rw [hall, List.mem_singleton] at hx
    rw [hx]
    exact Binary32.narrow_widen (by cbv)
  obtain ⟨out, hencode, hlength, htranscript, -⟩ :=
    encode_decoded compile_sample rfl rfl rfl hdecode hfloats
  exact ⟨out, hencode, hlength, htranscript⟩

/-- What was consumed is the fewest bytes that hold the pieces. -/
theorem Transcript.consumed_eq (h : c.Transcript resolver data d pieces rest) :
    d.consumed = ((pieces.flatMap Piece.bits).length + 7) / 8 := by
  have hlen := h.length
  have hshort := h.short
  omega

/-- Where nothing but zeros is read over, a record in any mode is written as the front of the data,
up to the last byte that holds a bit which is not lost. So exactly the records whose lost bits begin
in the byte in which they end come back whole. -/
theorem encode_decoded_of_blank {options : CompileOptions} {source : String} {schema : Schema}
    (hcompile : compile options source = .ok schema) (hlayout : c.layout = schema.layout)
    (hcustom : schema.layout.customUses = []) (hdecode : c.decode resolver data = .ok d)
    (hfloats : ∀ x ∈ d.tree.value.floats, x.widen.narrow = x) :
    ∃ out, c.encode resolver d.tree = .ok out ∧
      (∃ pieces rest, c.Transcript resolver data d pieces rest) ∧
      ∀ pieces rest, c.Transcript resolver data d pieces rest →
        (∀ e ∈ pieces, e.Blank) → (∀ b ∈ rest, b = false) →
        out = data.take (((pieces.flatMap Piece.keptBits).length + 7) / 8) ∧
        (out = data.take d.consumed ↔
          ((pieces.flatMap Piece.keptBits).length + 7) / 8 =
            ((pieces.flatMap Piece.keptBits).length +
              (pieces.flatMap Piece.lostBits).length + 7) / 8) := by
  obtain ⟨pieces, rest, h⟩ := exists_transcript (hlayout ▸ hcustom) hdecode
  obtain ⟨out, hencode, -⟩ := h.encode hcompile hlayout hfloats
  refine ⟨out, hencode, ⟨pieces, rest, h⟩, fun pieces rest h hblank hrest => ?_⟩
  obtain ⟨out', hencode', hout⟩ := h.encode hcompile hlayout hfloats
  cases hencode.symm.trans hencode'
  rw [Piece.flatMap_written_of_blank hblank] at hout
  have hconsumed := h.consumed_eq
  have hle := h.consumed
  have hbits := h.bits
  have hlength := h.length
  rw [h.bits_eq, List.length_append] at hconsumed hlength
  rw [h.bits_eq, List.append_assoc] at hbits
  generalize hkept : pieces.flatMap Piece.keptBits = kept at *
  generalize hlost : pieces.flatMap Piece.lostBits = lost at *
  -- All that follows the kept bits is zero, which is also what fills up the last byte.
  have hzeros : lost ++ rest = List.replicate (lost.length + rest.length) false := by
    rw [← List.length_append]
    refine List.eq_replicate_of_mem fun b hb => ?_
    rcases List.mem_append.mp hb with hb | hb
    · exact Piece.lostBits_of_blank hblank b (hlost ▸ hb)
    · exact hrest b hb
  have hfront : out = data.take ((kept.length + 7) / 8) := by
    apply @BitOrder.stream_inj c.options.bitOrder
    have htake : data.take ((kept.length + 7) / 8) =
        (data.take d.consumed).take ((kept.length + 7) / 8) := by
      rw [List.take_take, Nat.min_eq_left (by omega)]
    rw [htake, BitOrder.stream_take, hbits, hzeros, hout, List.take_append,
      List.take_of_length_le (by omega), List.take_replicate]
    congr 2
    simp only [Bits.toByte]
    omega
  refine ⟨hfront, ?_⟩
  rw [hfront, ← hconsumed]
  constructor
  · intro hsame
    have hlen := congrArg List.length hsame
    rw [List.length_take, List.length_take] at hlen
    omega
  · intro hsame
    rw [hsame]

/-- A structure that begins with a skip and whose first value is missing: nothing of it is written.
-/
def skippingLayout : Layout :=
  .group ⟨0, some ⟨"s", "s", 0⟩, .big, ⟨0, 1, 1⟩⟩ none
    (.item ⟨1, none, .big, ⟨4, 1, 5⟩⟩ (.skip (.const 2))
      (.item ⟨2, some ⟨"s.a", "a", 2⟩, .big, ⟨12, 1, 13⟩⟩ (.value (.fixed .byte) none) .done))
    ⟨20, 1, 21⟩ .done

/-- A record that ends in front of the values of its structure writes back less than was read. -/
theorem encode_decoded_skipping :
    decode ⟨skippingLayout, { lenient := true }⟩ none [0, 0] =
        .ok ⟨.unnamed (.struct [.new (some ⟨"s", "s", 0⟩) (.struct [])]), 2⟩ ∧
      ∃ out, encode ⟨skippingLayout, { lenient := true }⟩ none
          (.unnamed (.struct [.new (some ⟨"s", "s", 0⟩) (.struct [])])) = .ok out ∧ out = [] ∧
        ∃ pieces rest, Transcript ⟨skippingLayout, { lenient := true }⟩ none [0, 0]
          ⟨.unnamed (.struct [.new (some ⟨"s", "s", 0⟩) (.struct [])]), 2⟩ pieces rest := by
  have hcompile : compile {} "s { skip:2; byte a; }" =
      .ok ⟨"s { skip:2; byte a; }", skippingLayout⟩ := by cbv
  have hdecode : decode ⟨skippingLayout, { lenient := true }⟩ none [0, 0] =
      .ok ⟨.unnamed (.struct [.new (some ⟨"s", "s", 0⟩) (.struct [])]), 2⟩ := by cbv
  have hempty : encode ⟨skippingLayout, { lenient := true }⟩ none
      (.unnamed (.struct [.new (some ⟨"s", "s", 0⟩) (.struct [])])) = .ok [] := by cbv
  obtain ⟨out, hencode, htranscript, -⟩ :=
    encode_decoded_of_blank hcompile rfl rfl hdecode (fun x hx => by cases hx)
  cases hempty.symm.trans hencode
  exact ⟨hdecode, [], hempty, rfl, htranscript⟩

end Codec

end RecordLayout
