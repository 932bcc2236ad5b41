import RecordLayout.Proofs.Codec.DecodeEncode
import RecordLayout.Proofs.Pass.Cutoff
import RecordLayout.Proofs.Pass.ReadComplete

/-!
# The extent of a record

A strict codec without unbounded arrays finds the end of a record in the record itself. So the bytes
behind it make no difference, and no shorter stream holds it.
-/

namespace RecordLayout

namespace Codec

variable {c : Codec} {resolver : Option Resolver} {data : List UInt8} {d : Decoded}

/-- Decoding is the read pass from the front of the bytes. -/
theorem decode_eq_record (c : Codec) (resolver : Option Resolver) (data : List UInt8) :
    c.decode resolver data =
      match Decode.record (c.context resolver) c.layout (readStart data) with
      | .ok tree s => .ok ⟨tree, s.stream.fetched⟩
      | .error e _ => .error e := by
  rw [decode, read, PassM.report, readStart]
  cases Decode.record (c.context resolver) c.layout ⟨.ofSource (.ofBytes data), .empty, []⟩ <;> rfl

/-- The pass over the first bytes is one whose stream breaks off. -/
theorem cut_readStart (data : List UInt8) (k : Nat) :
    Decode.Cut none (data.drop k) (readStart (data.take k)) (readStart data) := by
  refine ⟨Reader.cut_ofSource ⟨?_, rfl, rfl⟩, rfl⟩
  rw [Source.bytes_ofBytes, Source.bytes_ofBytes, List.take_append_drop]

/-- Whatever follows the bytes of a record, the record is the same. -/
theorem Transcript.decode_append {pieces : List Piece} {rest : List Bool}
    (h : c.Transcript resolver data d pieces rest) (hterminal : c.layout.Terminal)
    (hbounded : c.layout.endless = false) (hstrict : c.options.lenient = false)
    (suffix : List UInt8) : c.decode resolver (data.take d.consumed ++ suffix) = .ok d := by
  obtain ⟨fields, place, htree, hspells⟩ := h.spells
  have hroomy := hspells.roomy (Layout.wide_of_bounded hbounded)
  cases place with
  | none =>
    have hlenient : c.options.lenient = true := hspells.holdsValue_of_none.1
    rw [hstrict] at hlenient
    cases hlenient
  | some p =>
    have hfront : (readStart (data.take d.consumed ++ suffix)).stream.ahead c.options.bitOrder =
        pieces.flatMap Piece.bits ++ (rest ++ c.options.bitOrder.stream suffix) := by
      rw [readStart, Reader.ahead_ofSource, Source.bytes_ofBytes, BitOrder.stream_append, h.bits,
        List.append_assoc]
    obtain ⟨s, hfields, hadvances, hat⟩ := Decode.fields_of_front hstrict hterminal hspells hroomy
      (fun h => absurd (hbounded.symm.trans h) (by decide)) (at_readStart _) hfront
    refine decode_eq_ok_iff.mpr ⟨fields, .goOn, s, hfields, ?_⟩
    have hoffset := hadvances.consumes.offset
    simp only [readStart, Reader.offset_ofSource, Nat.zero_add] at hoffset
    have hlength := h.length
    have hshort := h.short
    have hfetched : s.stream.fetched = d.consumed := by
      rw [hat.sound.fetched_eq, hoffset]
      omega
    rw [hfetched, ← htree]

/-- A shorter stream runs out. -/
theorem decode_take (hcustom : c.layout.customUses = []) (hbounded : c.layout.endless = false)
    (hstrict : c.options.lenient = false) (hdecode : c.decode resolver data = .ok d) {k : Nat}
    (hk : k < d.consumed) :
    ∃ e, c.decode resolver (data.take k) = .error e ∧ e.kind = .exhausted := by
  have hsurvives : Decode.Survives none (data.drop k)
      (Decode.record (c.context resolver) c.layout) :=
    Decode.survives_record hcustom (fun h => absurd (hstrict.symm.trans h) (by decide))
      (fun h => absurd (hbounded.symm.trans h) (by decide))
  have hrun := hsurvives _ _ (cut_readStart data k)
  rw [decode_eq_record] at hdecode
  cases hshort : Decode.record (c.context resolver) c.layout (readStart (data.take k)) with
  | ok tree s =>
    rw [hshort] at hrun
    obtain ⟨t, hlong, hcut, -⟩ := hrun
    rw [hlong] at hdecode
    cases hdecode
    -- The record would have been taken from fewer bytes than it was.
    have hdecoded : c.decode resolver (data.take k) = .ok ⟨tree, s.stream.fetched⟩ := by
      rw [decode_eq_record, hshort]
    obtain ⟨pieces, rest, htranscript⟩ := exists_transcript hcustom hdecoded
    have hle := htranscript.consumed
    have hsame := hcut.fetched
    rw [List.length_take] at hle
    dsimp only at hk hle
    omega
  | error e s =>
    rw [hshort] at hrun
    refine ⟨e, by rw [decode_eq_record, hshort], ?_⟩
    rcases hrun with hlost | ⟨t, hlong⟩
    · exact hlost
    · rw [hlong] at hdecode
      cases hdecode

/-- A record takes no more bytes than there are. It is the same whatever follows these bytes, and
with fewer of them the stream runs out. -/
theorem extent_of_decoded {options : CompileOptions} {source : String} {schema : Schema}
    (hcompile : compile options source = .ok schema) (hlayout : c.layout = schema.layout)
    (hcustom : schema.layout.customUses = []) (hbounded : schema.layout.endless = false)
    (hstrict : c.options.lenient = false) (hdecode : c.decode resolver data = .ok d) :
    d.consumed ≤ data.length ∧
      (∀ suffix, c.decode resolver (data.take d.consumed ++ suffix) = .ok d) ∧
      ∀ k < d.consumed, ∃ e, c.decode resolver (data.take k) = .error e ∧ e.kind = .exhausted := by
  obtain ⟨-, hterminal⟩ := compile_shape hcompile
  rw [← hlayout] at hterminal hcustom hbounded
  obtain ⟨pieces, rest, htranscript⟩ := exists_transcript hcustom hdecode
  exact ⟨htranscript.consumed,
    htranscript.decode_append hterminal hbounded hstrict,
    fun k hk => decode_take hcustom hbounded hstrict hdecode hk⟩

/-- A layout with a count, a text, and bits that end inside a byte. -/
def boundedLayout : Layout :=
  .item ⟨0, some ⟨"n", "n", 0⟩, .big, ⟨0, 1, 1⟩⟩ (.value (.fixed .byte) none)
    (.item ⟨1, some ⟨"t", "t", 1⟩, .big, ⟨8, 1, 9⟩⟩ (.value .text none)
      (.item ⟨2, some ⟨"b", "b", 2⟩, .big, ⟨19, 1, 20⟩⟩
        (.value (.bit (.const 3)) (some (.computed (.field ⟨"n", "n", 0⟩)))) .done))

/-- Four of the five bytes are those of the record. -/
theorem extent_of_bounded :
    ∃ d, decode ⟨boundedLayout, {}⟩ none [2, 1, 65, 0x3F, 99] = .ok d ∧ d.consumed = 4 ∧
      (∀ suffix, decode ⟨boundedLayout, {}⟩ none ([2, 1, 65, 0x3F] ++ suffix) = .ok d) ∧
      ∀ k < 4, ∃ e, decode ⟨boundedLayout, {}⟩ none ([2, 1, 65, 0x3F, 99].take k) = .error e ∧
        e.kind = .exhausted := by
  have hcompile : compile {} "byte n; stringj t; bit:3 [n] b;" =
      .ok ⟨"byte n; stringj t; bit:3 [n] b;", boundedLayout⟩ := by cbv
  have hdecode : decode ⟨boundedLayout, {}⟩ none [2, 1, 65, 0x3F, 99] =
      .ok ⟨.unnamed (.struct [.new (some ⟨"n", "n", 0⟩) (.byte 2),
        .new (some ⟨"t", "t", 1⟩) (.text (some "A")),
        .new (some ⟨"b", "b", 2⟩) (.list [.bit 7, .bit 7])]), 4⟩ := by cbv
  obtain ⟨-, hsuffix, hshort⟩ := extent_of_decoded hcompile rfl rfl rfl rfl hdecode
  exact ⟨_, hdecode, rfl, hsuffix, hshort⟩

end Codec

end RecordLayout
