import RecordLayout.Proofs.Codec.Passes
import RecordLayout.Proofs.Pass.WholeStream

/-!
# Unbounded arrays account for the whole input

A layout with an unbounded array has no byte of the input left over. The last byte may hold more bits
than the last element takes, but only zeros.
-/

namespace RecordLayout.Codec

variable {c : Codec} {resolver : Option Resolver} {data : List UInt8} {d : Decoded}

/-- A reader that has come from the front of some bytes and has only padding ahead took them all. -/
theorem fetched_of_padding {order : BitOrder} {r : Reader}
    (hfrom : Reader.From (.ofSource (.ofBytes data)) r) (hpadding : Decode.Padding (r.ahead order)) :
    r.fetched = data.length ∧ r.ahead order = (order.stream data).drop r.offset := by
  have hahead := hfrom.ahead_eq order
  rw [Reader.ahead_ofSource, Source.bytes_ofBytes, Reader.offset_ofSource, Nat.sub_zero] at hahead
  refine ⟨?_, hahead⟩
  have hshort := hpadding.short
  have hall := hfrom.offset_add_remaining
  have hbuffered := hfrom.sound.offset_add
  rw [Reader.length_ahead, Reader.remaining_eq] at hshort
  rw [Reader.offset_ofSource, Nat.zero_add, ← Reader.length_ahead order (.ofSource _),
    Reader.ahead_ofSource, Source.bytes_ofBytes, BitOrder.length_stream, Reader.remaining_eq] at hall
  omega

/-- A record of a layout with an unbounded array takes all bytes, and the bits behind the last one
that it takes are zero, whatever custom types it has and whether or not it may end early. -/
theorem whole_input_of_decoded {options : CompileOptions} {source : String} {schema : Schema}
    (hcompile : compile options source = .ok schema) (hlayout : c.layout = schema.layout)
    (hendless : schema.layout.endless = true) (hdecode : c.decode resolver data = .ok d) :
    d.consumed = data.length ∧
      ∀ b ∈ (c.options.bitOrder.stream data).drop
        (c.read resolver (.ofBytes data)).stream.offset, b = false := by
  obtain ⟨-, hterminal⟩ := compile_shape hcompile
  rw [← hlayout] at hterminal hendless
  simp only [decode] at hdecode
  cases hresult : (c.read resolver (.ofBytes data)).result with
  | error e =>
    rw [hresult] at hdecode
    cases hdecode
  | ok tree =>
    obtain ⟨s, hrecord, hreport⟩ := PassM.report_result_eq_ok_iff.mp hresult
    have hread : c.read resolver (.ofBytes data) = ⟨.ok tree, s.stream, s.asked⟩ := hreport
    obtain ⟨fields, flow, hfields, rfl⟩ := Decode.record_eq_ok_iff.mp hrecord
    rw [hread] at hdecode ⊢
    cases hdecode
    have hstart : Decode.Goes (.ofSource (.ofBytes data)) (readStart data) :=
      Reader.From.refl (Reader.sound_ofSource _)
    have haccounts : Decode.Accounts (.ofSource (.ofBytes data)) (c.context resolver)
        c.layout.endless (Decode.fields (c.context resolver) c.layout) :=
      Decode.accounts_fields rfl hterminal
    obtain ⟨hfrom, hspent⟩ := haccounts _ _ _ _ hstart hfields
    have hpadding := hspent (.inr hendless)
    obtain ⟨hfetched, hahead⟩ := fetched_of_padding hfrom hpadding
    refine ⟨hfetched, fun b hb => hpadding.zeros b ?_⟩
    rw [hahead]
    exact hb

/-- Elements of three bits, two of which leave two bits of a byte. -/
def tripletsLayout : Layout :=
  .item ⟨0, some ⟨"b", "b", 0⟩, .big, ⟨0, 1, 1⟩⟩ (.value (.bit (.const 3)) (some .unbounded)) .done

/-- Two triplets of bits leave two zero bits of padding. -/
theorem whole_input_of_triplets :
    ∃ d, decode ⟨tripletsLayout, {}⟩ none [0x3F] = .ok d ∧ d.consumed = 1 ∧
      ∀ b ∈ (BitOrder.lsb0.stream [0x3F]).drop
        (read ⟨tripletsLayout, {}⟩ none (.ofBytes [0x3F])).stream.offset, b = false := by
  have hcompile : compile {} "bit:3 [_] b;" = .ok ⟨"bit:3 [_] b;", tripletsLayout⟩ := by cbv
  have hdecode : decode ⟨tripletsLayout, {}⟩ none [0x3F] =
      .ok ⟨.unnamed (.struct [.new (some ⟨"b", "b", 0⟩) (.list [.bit 7, .bit 7])]), 1⟩ := by cbv
  obtain ⟨-, hzeros⟩ := whole_input_of_decoded hcompile rfl rfl hdecode
  exact ⟨_, hdecode, rfl, hzeros⟩

end RecordLayout.Codec
