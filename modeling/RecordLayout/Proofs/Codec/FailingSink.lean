import RecordLayout.Proofs.Codec.Passes
import RecordLayout.Proofs.Pass.Filling

/-!
# Writing to a sink that fails

A sink may refuse the byte that would bring what it holds over a limit. A write to it gives it the
bytes that the same write gives to a sink that takes everything, up to the limit, whether that write
succeeds or fails. If they all fit the write ends as it does there, and otherwise it ends with the
error of the sink.
-/

namespace RecordLayout

/-- An empty sink that takes only so many bytes. -/
def Sink.limited (n : Nat) (message : String) : Sink := ⟨#[], some (n, message), none⟩

/-- How a write to a sink that takes only `n` bytes ends, beside the same write to one that takes
everything. -/
structure PassReport.CutOff (n : Nat) (message : String) (whole cut : PassReport Feed Unit) :
    Prop where
  /-- The sink has received the first bytes. -/
  bytes : cut.bytes = whole.bytes.take n
  /-- If there are no more, nothing else is different. -/
  result : whole.bytes.length ≤ n → cut.result = whole.result
  /-- Otherwise the sink has refused one. -/
  refused : n < whole.bytes.length → cut.result = .error (.device message)

/-- The report of an operation that a limit of the sink cuts off. -/
theorem PassM.report_cutOff {m : PassM Feed Unit} (hm : Fills m) (items : List Item) (n : Nat)
    (message : String) :
    (m.report ⟨.ofSink .empty, items⟩).CutOff n message
      (m.report ⟨.ofSink (.limited n message), items⟩) := by
  have hreport : ∀ stream, m.report stream =
      ⟨resultOf (m ⟨stream, .empty, []⟩), (stateOf (m ⟨stream, .empty, []⟩)).stream,
        (stateOf (m ⟨stream, .empty, []⟩)).asked⟩ := by
    intro stream
    unfold PassM.report
    cases m ⟨stream, .empty, []⟩ <;> rfl
  have hbytes : ∀ stream, (m.report stream).bytes =
      HasSink.received (stateOf (m ⟨stream, .empty, []⟩)) := by
    intro stream
    rw [hreport]
    rfl
  have hresult : ∀ stream, (m.report stream).result = resultOf (m ⟨stream, .empty, []⟩) := by
    intro stream
    rw [hreport]
  have hstart : HasSink.limited n message (⟨⟨.ofSink .empty, items⟩, .empty, []⟩ : PassState Feed) =
      ⟨⟨.ofSink (.limited n message), items⟩, .empty, []⟩ := rfl
  have hcuts := (hm ⟨⟨.ofSink .empty, items⟩, .empty, []⟩ rfl).cutsOff n message (Nat.zero_le n)
  rw [hstart] at hcuts
  rcases hcuts with ⟨hfits, hsame⟩ | ⟨hover, s, hrefused, hs⟩
  · refine ⟨?_, fun _ => ?_, fun hover => ?_⟩
    · rw [hbytes, hbytes, hsame, List.take_of_length_le hfits]
      cases m ⟨⟨.ofSink .empty, items⟩, .empty, []⟩ <;> rfl
    · rw [hresult, hresult, hsame]
      cases m ⟨⟨.ofSink .empty, items⟩, .empty, []⟩ <;> rfl
    · rw [hbytes] at hover
      exact absurd hfits (Nat.not_le.mpr hover)
  · refine ⟨?_, fun hfits => ?_, fun _ => ?_⟩
    · rw [hbytes, hbytes, hrefused]
      exact hs
    · rw [hbytes] at hfits
      exact absurd hfits (Nat.not_le.mpr hover)
    · rw [hresult, hrefused]
      rfl

namespace Codec

variable {c : Codec}

/-- A write to a sink with a limit is the write to one without it, cut off. -/
theorem write_cutOff (hcustom : c.layout.customUses = []) (resolver : Option Resolver)
    (items : List Item) (n : Nat) (message : String) :
    (c.write resolver items .empty).CutOff n message
      (c.write resolver items (.limited n message)) :=
  PassM.report_cutOff (Encode.fills_record hcustom) items n message

/-- Write failures leave a prefix: whatever tree or values are written, a sink that takes only `n`
bytes receives the first `n` of the bytes that a sink without limit receives, also where that write
fails; if there are no more the outcome is the same, and otherwise it is the error of the sink. -/
theorem write_to_limited_sink (hcustom : c.layout.customUses = []) (resolver : Option Resolver)
    (n : Nat) (message : String) :
    (∀ tree, (c.writeTree resolver tree .empty).CutOff n message
      (c.writeTree resolver tree (.limited n message))) ∧
    ∀ values, (c.writeValues resolver values .empty).CutOff n message
      (c.writeValues resolver values (.limited n message)) := by
  refine ⟨fun tree => ?_, fun values => write_cutOff hcustom resolver _ n message⟩
  unfold writeTree
  cases Item.ofTree c.layout tree with
  | ok laid => exact write_cutOff hcustom resolver laid.1 n message
  | error e => exact ⟨List.take_nil.symm, fun _ => rfl, fun hover => absurd hover (Nat.not_lt_zero n)⟩

/-- A write of the sample that ends in the middle, and one of them to a sink that is full before. -/
theorem write_sample_to_limited_sink :
    let c : Codec := ⟨sampleLayout, {}⟩
    let tree := sampleTree (.byte 2) (.bit 5) (.bit 6) (.text (some "")) (.bytes [])
    c.layout.customUses = [] ∧ (c.writeTree none tree .empty).bytes = [2, 5, 6] ∧
      (∃ e, (c.writeTree none tree .empty).result = .error e ∧ e.kind = .structural) ∧
      (c.writeTree none tree (.limited 2 "sink failed")).bytes = [2, 5] ∧
      (c.writeTree none tree (.limited 2 "sink failed")).result = .error (.device "sink failed") := by
  intro c tree
  have hcustom : c.layout.customUses = [] := rfl
  have hbytes : (c.writeTree none tree .empty).bytes = [2, 5, 6] := by cbv
  have hresult : (c.writeTree none tree .empty).result =
      .error (.wrongType "x" "floatj" (.text (some ""))) := by cbv
  have hcut := (write_to_limited_sink hcustom none 2 "sink failed").1 tree
  have hcutBytes := hcut.bytes
  rw [hbytes] at hcutBytes
  exact ⟨hcustom, hbytes, ⟨_, hresult, rfl⟩, hcutBytes, hcut.refused (by rw [hbytes]; decide)⟩

end Codec

end RecordLayout
