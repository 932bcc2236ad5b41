import RecordLayout.Proofs.Codec.WholeInput
import RecordLayout.Proofs.Pass.Leniency

/-!
# The lenient option is conservative

Where a strict codec decodes some bytes, the lenient one decodes them as well and takes as many of
them. It may leave out what stands behind the last bit: arrays without elements, empty structures,
and whatever else takes no bits.
-/

namespace RecordLayout.Codec

/-- The codec that lets records end early. -/
def leniently (c : Codec) : Codec := { c with options := { c.options with lenient := true } }

variable {c : Codec} {resolver : Option Resolver} {data : List UInt8} {d : Decoded}

/-- A reader that has come from the front of some bytes and has no bit left took all of them. -/
theorem fetched_of_spent {r : Reader} (hfrom : Reader.From (.ofSource (.ofBytes data)) r)
    (hspent : r.remaining = 0) : r.fetched = data.length ∧ r.buffered = 0 := by
  have hahead : r.ahead .lsb0 = [] := List.length_eq_zero_iff.mp (by rw [Reader.length_ahead, hspent])
  have hpadding : Decode.Padding (r.ahead .lsb0) := by
    rw [hahead]
    exact ⟨Nat.succ_pos 7, nofun⟩
  rw [Reader.remaining] at hspent
  exact ⟨(fetched_of_padding hfrom hpadding).1, by omega⟩

/-- Whatever a strict codec decodes the lenient one decodes too. It takes as many bytes, and its tree
is the same or is cut off at one place, so that its fields are the first ones in document order. It
is cut off only where the record takes all bytes and no bit is left of the last one. -/
theorem decode_leniently (hcustom : c.layout.customUses = []) (hstrict : c.options.lenient = false)
    (hdecode : c.decode resolver data = .ok d) :
    ∃ d', c.leniently.decode resolver data = .ok d' ∧ d'.consumed = d.consumed ∧
      (d'.tree = d.tree ∨ d'.tree.Truncates d.tree) ∧
      d'.tree.value.nested.map Field.info <+: d.tree.value.nested.map Field.info ∧
      (d'.tree ≠ d.tree → d.consumed = data.length ∧
        (c.read resolver (.ofBytes data)).stream.buffered = 0 ∧
        (c.leniently.read resolver (.ofBytes data)).stream.buffered = 0) := by
  obtain ⟨found, flow, s, hfields, rfl⟩ := decode_eq_ok_iff.mp hdecode
  have hsound := Reader.sound_ofSource (.ofBytes data)
  obtain ⟨rfl, hgoes, hlenient⟩ :=
    Decode.concedes_fields hstrict hcustom _ _ _ _ hsound rfl hfields
  have hlevel : Decode.Level (readStart data) (readStart data) :=
    ⟨Reader.cut_ofSource ⟨(List.append_nil _).symm, rfl, rfl⟩, rfl⟩
  obtain ⟨⟨found', flow⟩, s', hfields', htrails⟩ := hlenient _ hlevel
  refine ⟨_, decode_eq_ok_iff.mpr ⟨found', flow, s', hfields', rfl⟩, ?_⟩
  have hread' : c.leniently.read resolver (.ofBytes data) =
      ⟨.ok (.unnamed (.struct found')), s'.stream, s'.asked⟩ := read_of_fields hfields'
  rw [read_of_fields hfields, hread']
  cases flow with
  | goOn =>
    obtain ⟨rfl, hlevel⟩ := htrails
    exact ⟨hlevel.1.fetched, .inl rfl, List.prefix_rfl, fun hne => absurd rfl hne⟩
  | stop =>
    obtain ⟨hcut, hspent, hspent'⟩ := htrails
    have hgoes' : Decode.Goes (readStart data).stream s' :=
      Decode.forward_parts.fields (fun use _ => Decode.forward_custom use) (fun _ => trivial)
        (fun _ => trivial) _ _ _ (.refl hsound) hfields'
    obtain ⟨hfetched, hbuffered⟩ := fetched_of_spent hgoes hspent
    obtain ⟨hfetched', hbuffered'⟩ := fetched_of_spent hgoes' hspent'
    have htruncates : Value.Truncates (.struct found') (.struct found) := .struct hcut
    exact ⟨hfetched'.trans hfetched.symm, .inr ⟨htruncates, rfl⟩, htruncates.nested_prefix,
      fun _ => ⟨hfetched, hbuffered, hbuffered'⟩⟩

/-- An array of structures that end with an array without elements, and another such array. -/
def emptiesLayout : Layout :=
  .item ⟨0, some ⟨"n", "n", 0⟩, .big, ⟨0, 1, 1⟩⟩ (.value (.fixed .byte) none)
    (.group ⟨1, some ⟨"s", "s", 1⟩, .big, ⟨8, 1, 9⟩⟩ (some (.computed (.field ⟨"n", "n", 0⟩)))
      (.item ⟨2, some ⟨"s.a", "a", 2⟩, .big, ⟨16, 1, 17⟩⟩ (.value (.fixed .byte) none)
        (.item ⟨3, some ⟨"s.z", "z", 3⟩, .big, ⟨24, 1, 25⟩⟩
          (.value (.fixed .byte) (some (.const 0))) .done))
      ⟨36, 1, 37⟩
      (.item ⟨5, some ⟨"w", "w", 5⟩, .big, ⟨38, 1, 39⟩⟩
        (.value (.fixed .short) (some (.const 0))) .done))

/-- The one structure loses the array that it ends with, and the other array is gone. -/
theorem decode_empties_leniently :
    let c : Codec := ⟨emptiesLayout, {}⟩
    compile {} "byte n; s [n] \x7b byte a; byte [0] z; \x7d short [0] w;" =
        .ok ⟨"byte n; s [n] \x7b byte a; byte [0] z; \x7d short [0] w;", c.layout⟩ ∧
      ∃ d d', c.decode none [1, 7] = .ok d ∧ c.leniently.decode none [1, 7] = .ok d' ∧
        d'.consumed = d.consumed ∧ d'.tree ≠ d.tree ∧ d'.tree.Truncates d.tree ∧
        d.consumed = 2 ∧ (c.read none (.ofBytes [1, 7])).stream.buffered = 0 := by
  intro c
  have hcompile : compile {} "byte n; s [n] \x7b byte a; byte [0] z; \x7d short [0] w;" =
      .ok ⟨"byte n; s [n] \x7b byte a; byte [0] z; \x7d short [0] w;", emptiesLayout⟩ := by cbv
  have hdecode : c.decode none [1, 7] = .ok ⟨.unnamed (.struct [
      .new (some ⟨"n", "n", 0⟩) (.byte 1),
      .new (some ⟨"s", "s", 1⟩) (.list [.struct [
        .new (some ⟨"s.a", "a", 2⟩) (.byte 7), .new (some ⟨"s.z", "z", 3⟩) (.bytes [])]]),
      .new (some ⟨"w", "w", 5⟩) (.list [])]), 2⟩ := by cbv
  have hlenient : c.leniently.decode none [1, 7] = .ok ⟨.unnamed (.struct [
      .new (some ⟨"n", "n", 0⟩) (.byte 1),
      .new (some ⟨"s", "s", 1⟩) (.list [.struct [
        .new (some ⟨"s.a", "a", 2⟩) (.byte 7)]])]), 2⟩ := by cbv
  have hcustom : c.layout.customUses = [] := rfl
  obtain ⟨d', hd', hconsumed, hsame, -, hspent⟩ := decode_leniently hcustom rfl hdecode
  cases hlenient.symm.trans hd'
  refine ⟨hcompile, _, _, hdecode, hlenient, hconsumed, ?_⟩
  rcases hsame with hsame | htruncates
  · cases hsame
  · obtain ⟨htwo, hbuffered, -⟩ := hspent (by intro h; cases h)
    exact ⟨(by intro h; cases h), htruncates, htwo, hbuffered⟩

end RecordLayout.Codec
