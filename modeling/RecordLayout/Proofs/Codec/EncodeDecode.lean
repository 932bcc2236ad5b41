import RecordLayout.Proofs.Codec.Passes
import RecordLayout.Proofs.Pass.ReadComplete
import RecordLayout.Proofs.Pass.WriteSound

/-!
# Reading what was written

A complete tree that was written is read again. Every value comes back in the form of its
declaration, so that the tree that is read gives the same items in this form.
-/

namespace RecordLayout

namespace Codec

variable {c : Codec} {resolver : Option Resolver} {out : List UInt8} {tree : Field}
  {items : List Item} {pieces : List Piece}

/-- The bytes that a record of the layout fills, with zeros in the rest of the last byte. -/
def Holds (c : Codec) (resolver : Option Resolver) (out : List UInt8) (fields : List Field)
    (pieces : List Piece) : Prop :=
  (∃ p, c.layout.Spells (c.context resolver) .start fields pieces (some p)) ∧
    c.options.bitOrder.stream out = pieces.flatMap Piece.bits ++
      List.replicate (Bits.toByte (pieces.flatMap Piece.bits).length) false

/-- What a strict write of a complete tree gives is a record of the layout, whose pieces are what
the items of the tree settle. -/
theorem holds_of_encode (hcustom : c.layout.customUses = []) (hstrict : c.options.lenient = false)
    (hlaid : Item.ofTree c.layout tree = .ok (items, true))
    (hencode : c.encode resolver tree = .ok out) :
    ∃ fields pieces, c.Holds resolver out fields pieces ∧
      List.Forall₂ Item.Settles items (pieces.filter Piece.takesItem) := by
  obtain ⟨items', whole, flow, s, w, hlaid', hfields, hempty, hfinish, rfl⟩ :=
    encode_eq_ok_iff.mp hencode
  cases hlaid.symm.trans hlaid'
  obtain ⟨pieces, hleaves, hleads⟩ :=
    Encode.fields_eq_ok hcustom (at_writeStart items .empty rfl rfl) hfields
  cases flow with
  | stop => cases hstrict.symm.trans hleads.1
  | goOn =>
    obtain ⟨p, ⟨fields, hspells⟩, hat⟩ := hleads
    obtain ⟨w', hfinish', hstream⟩ := Writer.finish_of_ready hat.ready
    cases hfinish.symm.trans hfinish'
    have hwritten : s.stream.writer.written c.options.bitOrder = pieces.flatMap Piece.bits :=
      hleaves.adds.written
    refine ⟨fields, pieces, ⟨⟨p, hspells⟩, ?_⟩, ?_⟩
    · rw [← hwritten]
      exact hstream
    · unfold Item.ofTree at hlaid
      split at hlaid
      · have hsupplies : Supplies (items ++ []) pieces s.stream.items := by
          rw [List.append_nil]
          exact hleaves.supplies
        exact (hspells.corresponds _ hlaid hsupplies).2
      · cases hlaid

/-- The record that fills some bytes is read from them. -/
theorem decode_of_holds {fields : List Field} (hstrict : c.options.lenient = false)
    (hterminal : c.layout.Terminal) (hroomy : Roomy pieces)
    (h : c.Holds resolver out fields pieces) :
    c.decode resolver out = .ok ⟨.unnamed (.struct fields), out.length⟩ := by
  obtain ⟨⟨p, hspells⟩, hstream⟩ := h
  have hpadding : Decode.Padding
      (List.replicate (Bits.toByte (pieces.flatMap Piece.bits).length) false) :=
    ⟨by rw [List.length_replicate]; exact Bits.toByte_lt _, fun b hb => List.eq_of_mem_replicate hb⟩
  have hfront : (readStart out).stream.ahead c.options.bitOrder =
      pieces.flatMap Piece.bits ++
        List.replicate (Bits.toByte (pieces.flatMap Piece.bits).length) false := by
    rw [← hstream, readStart, Reader.ahead_ofSource, Source.bytes_ofBytes]
  obtain ⟨s, hfields, hadvances, hat⟩ := Decode.fields_of_front hstrict hterminal hspells hroomy
    (fun _ => hpadding) (at_readStart out) hfront
  refine decode_eq_ok_iff.mpr ⟨fields, .goOn, s, hfields, ?_⟩
  have hoffset := hadvances.consumes.offset
  simp only [readStart, Reader.offset_ofSource, Nat.zero_add] at hoffset
  have hlength := congrArg List.length hstream
  rw [BitOrder.length_stream, List.length_append, List.length_replicate] at hlength
  have hlt := Bits.toByte_lt (pieces.flatMap Piece.bits).length
  rw [hat.sound.fetched_eq, hoffset]
  congr 1
  omega

/-- Whatever complete tree a codec writes, it reads a record from the bytes, takes all of them for
it, and finds each item of the tree in the form of its declaration; only the elements of an
unbounded array must have eight bits, since fewer could not be told from the filling of the last
byte. Whether they have may depend on a width that is computed, but not if the layout is wide. -/
theorem decode_encoded {options : CompileOptions} {source : String} {schema : Schema}
    (hcompile : compile options source = .ok schema) (hlayout : c.layout = schema.layout)
    (hcustom : schema.layout.customUses = []) (hstrict : c.options.lenient = false)
    (hlaid : Item.ofTree c.layout tree = .ok (items, true))
    (hencode : c.encode resolver tree = .ok out) :
    ∃ fields pieces, c.Holds resolver out fields pieces ∧
      List.Forall₂ Item.Settles items (pieces.filter Piece.takesItem) ∧
      (c.layout.Wide → Roomy pieces) ∧
      (Roomy pieces → ∃ d, c.decode resolver out = .ok d ∧ d.consumed = out.length ∧
        Item.ofTree c.layout d.tree = .ok (pieces.flatMap Piece.items, true)) := by
  obtain ⟨hnumbered, hterminal⟩ := compile_shape hcompile
  rw [← hlayout] at hnumbered hterminal hcustom
  obtain ⟨fields, pieces, hholds, hsettles⟩ := holds_of_encode hcustom hstrict hlaid hencode
  obtain ⟨p, hspells⟩ := hholds.1
  refine ⟨fields, pieces, hholds, hsettles, hspells.roomy, fun hroomy =>
    ⟨_, decode_of_holds hstrict hterminal hroomy hholds, rfl, ?_⟩⟩
  obtain ⟨whole, hfields, hwhole⟩ := hspells.laid hnumbered
  rw [hwhole rfl] at hfields
  exact hfields

/-- The tree of the sample with values of other types. -/
def sampleWritten : Field :=
  sampleTree (.long 258) (.int 13) (.bit 7) (.double ⟨0x8000000000000000⟩)
    (.list [.long 1, .ubyte 9])

/-- The values are cut to their width, and a list of bytes comes back as a byte string. -/
theorem decode_encoded_sample :
    ∃ fields pieces,
      Holds ⟨sampleLayout, {}⟩ none [2, 5, 7, 0x80, 0, 0, 0, 1, 9] fields pieces ∧
      List.Forall₂ Item.Settles [.value (.long 258), .elements 2, .value (.int 13),
        .value (.bit 7), .value (.double ⟨0x8000000000000000⟩), .value (.list [.long 1, .ubyte 9])]
        (pieces.filter Piece.takesItem) ∧
      ∃ d, decode ⟨sampleLayout, {}⟩ none [2, 5, 7, 0x80, 0, 0, 0, 1, 9] = .ok d ∧
        d.consumed = 9 ∧
        Item.ofTree sampleLayout d.tree = .ok (pieces.flatMap Piece.items, true) := by
  have hlaid : Item.ofTree sampleLayout sampleWritten =
      .ok ([.value (.long 258), .elements 2, .value (.int 13), .value (.bit 7),
        .value (.double ⟨0x8000000000000000⟩), .value (.list [.long 1, .ubyte 9])], true) := by cbv
  have hencode : encode ⟨sampleLayout, {}⟩ none sampleWritten =
      .ok [2, 5, 7, 0x80, 0, 0, 0, 1, 9] := by cbv
  have hwide : sampleLayout.Wide := by
    refine ⟨?_, ?_, ⟨?_, ?_, trivial⟩, ?_, ?_, trivial⟩
    · rintro type ⟨⟩
    · rintro ⟨⟩
    · rintro type ⟨⟩
    · rintro type ⟨⟩
    · rintro type ⟨⟩
    · rintro type ⟨⟩ env w ⟨⟩
      exact Nat.le_refl 8
  obtain ⟨fields, pieces, hholds, hsettles, hroomy, hread⟩ :=
    decode_encoded compile_sample rfl rfl rfl hlaid hencode
  exact ⟨fields, pieces, hholds, hsettles, hread (hroomy hwide)⟩

end Codec

end RecordLayout
