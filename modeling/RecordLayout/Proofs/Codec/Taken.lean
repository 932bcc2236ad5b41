import RecordLayout.Proofs.Codec.Passes
import RecordLayout.Proofs.Pass.Shortened

/-!
# What a pass leaves in its source

A record ends behind the last byte that its pass fetched, and the next record begins there. A strict
pass leaves its source at this place. A lenient one may have looked for another byte there, which is
then in its lookahead and lost to the next pass: that is so exactly if the record would have ended
sooner without that byte.
-/

namespace RecordLayout

/-- A fresh reader of the front of a stream is a fresh reader of the stream, cut short. -/
theorem Reader.shortened_ofSource (source : Source) {limit : Nat}
    (h : limit ≤ source.bytes.length) :
    Shortened limit (.ofSource source) (.ofSource (.ofBytes (source.bytes.take limit))) where
  unfetched := by
    show (Source.ofBytes (source.bytes.take limit)).bytes <+: source.bytes
    rw [Source.bytes_ofBytes]
    exact List.take_prefix limit source.bytes
  length := by
    show 0 + (Source.ofBytes (source.bytes.take limit)).bytes.length = limit
    rw [Source.bytes_ofBytes, List.length_take]
    omega
  taken := Nat.zero_le limit
  ends := rfl
  same := rfl

namespace Codec

variable {c : Codec} {resolver : Option Resolver} {source : Source} {tree : Field}

/-- A pass that succeeds takes the bytes that it reports as fetched, and leaves the source at the
first byte behind them, exactly if it has the same record from these bytes alone. A strict one always
does. Otherwise it has taken one byte more, for without that byte a lenient pass stops sooner. -/
theorem taken_of_read (hcustom : c.layout.customUses = []) (hbounded : c.layout.endless = false)
    (hread : (c.read resolver source).result = .ok tree) :
    let r := (c.read resolver source).stream
    r.fetched ≤ source.bytes.length ∧ r.source.failure = source.failure ∧
      (r.source.bytes = source.bytes.drop r.fetched ↔
        c.decode resolver (source.bytes.take r.fetched) = .ok ⟨tree, r.fetched⟩) ∧
      (c.options.lenient = false → r.source.bytes = source.bytes.drop r.fetched) ∧
      (r.source.bytes ≠ source.bytes.drop r.fetched → ∃ b shorter,
        source.bytes.drop r.fetched = b :: r.source.bytes ∧
        c.decode resolver (source.bytes.take r.fetched) = .ok ⟨shorter, r.fetched⟩ ∧
        shorter.Truncates tree) := by
  intro r
  obtain ⟨s, hrecord, hreport⟩ := PassM.report_result_eq_ok_iff.mp hread
  obtain ⟨fields, flow, hfields, rfl⟩ := Decode.record_eq_ok_iff.mp hrecord
  have hr : r = s.stream := congrArg PassReport.stream hreport
  clear_value r
  subst hr
  have hshortens : Decode.Shortens (c.context resolver) s.stream.fetched Fields.Truncates
      (Decode.fields (c.context resolver) c.layout) := Decode.shortens_fields hcustom hbounded
  obtain ⟨hpast, hshorter⟩ := hshortens _ _ _ hfields
  obtain ⟨bs, hbytes, hfetched⟩ := hpast.bytes
  replace hbytes : source.bytes = bs ++ (s.stream.lookahead.toList ++ s.stream.source.bytes) :=
    hbytes
  replace hfetched : s.stream.fetched = bs.length := hfetched.trans (Nat.zero_add _)
  have hle : s.stream.fetched ≤ source.bytes.length := by
    rw [hbytes, hfetched, List.length_append]
    exact Nat.le_add_right _ _
  have hdrop : source.bytes.drop s.stream.fetched =
      s.stream.lookahead.toList ++ s.stream.source.bytes := by
    rw [hbytes, hfetched, List.drop_left]
  obtain ⟨⟨found, flow'⟩, s', hfound, hkeeps⟩ := hshorter (Nat.le_refl _)
    (readStart (source.bytes.take s.stream.fetched)) ⟨Reader.shortened_ofSource source hle, rfl⟩
  have hdecode : c.decode resolver (source.bytes.take s.stream.fetched) =
      .ok ⟨.unnamed (.struct found), s'.stream.fetched⟩ :=
    decode_eq_ok_iff.mpr ⟨found, flow', s', hfound, rfl⟩
  refine ⟨hle, hpast.failure, ?_⟩
  rw [hdrop, hdecode]
  rcases hkeeps with ⟨heq, hlevel⟩ | ⟨⟨hlenient, htaken, hconsumed⟩, hstop, hcut⟩
  · cases heq
    have hnone : s.stream.lookahead = none := by
      have htaken := hlevel.1.taken
      rw [Reader.taken] at htaken
      exact Option.toList_eq_nil_iff.mp (List.length_eq_zero_iff.mp (by omega))
    rw [hnone, hlevel.1.fetched]
    exact ⟨⟨fun _ => rfl, fun _ => rfl⟩, fun _ => rfl, fun hne => absurd rfl hne⟩
  · -- The byte in the lookahead is the one that the shorter pass did not find.
    obtain ⟨b, hsome⟩ : ∃ b, s.stream.lookahead = some b := by
      rw [Reader.taken] at htaken
      cases hlook : s.stream.lookahead with
      | none =>
        rw [hlook, Option.toList_none, List.length_nil] at htaken
        omega
      | some b => exact ⟨b, rfl⟩
    have htruncates : Field.Truncates (.unnamed (.struct found)) (.unnamed (.struct fields)) :=
      ⟨.struct hcut, rfl⟩
    rw [hsome, hconsumed]
    refine ⟨⟨fun hsame => ?_, fun hsame => ?_⟩, fun hstrict => ?_, fun _ => ?_⟩
    · exact absurd (congrArg List.length hsame) (by simp)
    · cases hsame
      exact absurd rfl hcut.ne
    · rw [show c.options.lenient = true from hlenient] at hstrict
      cases hstrict
    · exact ⟨b, _, rfl, rfl, htruncates⟩

/-- A count and an array of so many bytes. -/
def countedLayout : Layout :=
  .item ⟨0, some ⟨"n", "n", 0⟩, .big, ⟨0, 1, 1⟩⟩ (.value (.fixed .byte) none)
    (.item ⟨1, some ⟨"a", "a", 1⟩, .big, ⟨8, 1, 9⟩⟩
      (.value (.fixed .byte) (some (.computed (.field ⟨"n", "n", 0⟩)))) .done)

/-- Of a record with one byte in the array the next one begins where it ends. Of one without any, the
lenient pass takes the byte behind it; from the count alone it has no array. -/
theorem taken_of_counted :
    let c : Codec := ⟨countedLayout, { lenient := true }⟩
    compile {} "byte n; byte [n] a;" = .ok ⟨"byte n; byte [n] a;", c.layout⟩ ∧
      ((c.read none (.ofBytes [1, 7, 5])).stream.fetched = 2 ∧
        (c.read none (.ofBytes [1, 7, 5])).stream.source.bytes = [5]) ∧
      (c.read none (.ofBytes [0, 5])).stream.fetched = 1 ∧
        (c.read none (.ofBytes [0, 5])).stream.source.bytes = [] ∧
        ∃ shorter, c.decode none [0] = .ok ⟨shorter, 1⟩ ∧
          shorter.Truncates (.unnamed (.struct [.new (some ⟨"n", "n", 0⟩) (.byte 0),
            .new (some ⟨"a", "a", 1⟩) (.bytes [])])) := by
  intro c
  have hcompile : compile {} "byte n; byte [n] a;" =
      .ok ⟨"byte n; byte [n] a;", countedLayout⟩ := by cbv
  have hone : (c.read none (.ofBytes [1, 7, 5])).result = .ok (.unnamed (.struct [
      .new (some ⟨"n", "n", 0⟩) (.byte 1), .new (some ⟨"a", "a", 1⟩) (.bytes [7])])) := by cbv
  have hnone : (c.read none (.ofBytes [0, 5])).result = .ok (.unnamed (.struct [
      .new (some ⟨"n", "n", 0⟩) (.byte 0), .new (some ⟨"a", "a", 1⟩) (.bytes [])])) := by cbv
  have hcustom : c.layout.customUses = [] := rfl
  have hfetched : (c.read none (.ofBytes [1, 7, 5])).stream.fetched = 2 := by cbv
  have hfetched' : (c.read none (.ofBytes [0, 5])).stream.fetched = 1 := by cbv
  have hbytes' : (c.read none (.ofBytes [0, 5])).stream.source.bytes = [] := by cbv
  have hdecode : c.decode none [1, 7] = .ok ⟨.unnamed (.struct [
      .new (some ⟨"n", "n", 0⟩) (.byte 1), .new (some ⟨"a", "a", 1⟩) (.bytes [7])]), 2⟩ := by cbv
  obtain ⟨-, -, hexact, -, -⟩ := taken_of_read hcustom rfl hone
  obtain ⟨-, -, -, -, hlost⟩ := taken_of_read hcustom rfl hnone
  rw [hfetched] at hexact
  rw [hfetched', hbytes'] at hlost
  obtain ⟨b, shorter, -, hshorter, htruncates⟩ := hlost (by decide)
  exact ⟨hcompile, ⟨hfetched, hexact.mpr hdecode⟩, hfetched', hbytes', shorter, hshorter,
    htruncates⟩

end Codec

end RecordLayout
