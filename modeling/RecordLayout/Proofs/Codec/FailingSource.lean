import RecordLayout.Proofs.Bits.Chunks
import RecordLayout.Proofs.Codec.Passes
import RecordLayout.Proofs.Pass.Cutoff

/-!
# Reading from a source that fails

A source that serves the first bytes of some data and then fails is never taken for one that has come
to its end there. Wherever a pass looks for the end of the stream, be it for the next bit, for the end
of an unbounded array or because a lenient record may end, it finds the failure and stops with it. So
what it gives without meeting the failure it gives from all of the data as well.
-/

namespace RecordLayout

/-- The bytes that a device has still to serve. -/
def Device.bytes (d : Device) : List UInt8 := d.source.bytes

namespace Codec

variable {c : Codec} {resolver : Option Resolver} {data : List UInt8}

/-- The pass over a source that serves the first bytes and then fails is one whose stream breaks
off. -/
theorem cut_of_failing {source : Source} {n : Nat} {message : String}
    (hbytes : source.bytes = data.take n) (hfailure : source.failure = some message) :
    Decode.Cut (some message) (data.drop n) ⟨.ofSource source, .empty, []⟩ (readStart data) := by
  refine ⟨Reader.cut_ofSource ⟨?_, hfailure, rfl⟩, rfl⟩
  rw [Source.bytes_ofBytes, hbytes, List.take_append_drop]

/-- A read from a source that fails reports what the read of all of the data reports, or the
failure. -/
theorem result_of_failing (hcustom : c.layout.customUses = []) {source : Source} {n : Nat}
    {message : String} (hbytes : source.bytes = data.take n)
    (hfailure : source.failure = some message) :
    (c.read resolver source).result = (c.read resolver (.ofBytes data)).result ∨
      ∃ e, (c.read resolver source).result = .error e ∧ e.kind = .device := by
  have hsurvives : Decode.Survives (some message) (data.drop n)
      (Decode.record (c.context resolver) c.layout) :=
    Decode.survives_record hcustom (fun _ => rfl) fun _ => rfl
  have hrun := hsurvives _ _ (cut_of_failing hbytes hfailure)
  unfold read PassM.report
  rw [← readStart]
  cases hshort : Decode.record (c.context resolver) c.layout ⟨.ofSource source, .empty, []⟩ with
  | ok tree s =>
    rw [hshort] at hrun
    obtain ⟨t, hlong, -⟩ := hrun
    rw [hlong]
    exact .inl rfl
  | error e s =>
    rw [hshort] at hrun
    rcases hrun with hlost | ⟨t, hlong⟩
    · exact .inr ⟨e, rfl, hlost⟩
    · rw [hlong]
      exact .inl rfl

/-- Whatever device serves the first bytes of the data and then fails, in chunks of any size and with
interruptions anywhere, it is read as its source, and the read reports what the read of all of the
data reports or the failure of the device. So it never gives another tree, never a record that ends
early, and never an end of the stream that is not there. -/
theorem read_of_failing_device (hcustom : c.layout.customUses = []) {d : Device} {n : Nat}
    {message : String} (hbytes : d.bytes = data.take n) (hfailure : d.failure = some message) :
    d.ReadsAs d.source ∧
      ((c.read resolver d.source).result = (c.read resolver (.ofBytes data)).result ∨
        ∃ e, (c.read resolver d.source).result = .error e ∧ e.kind = .device) :=
  ⟨d.readsAs_source, result_of_failing hcustom hbytes hfailure⟩

/-- A lenient record with an unbounded array of structures: every byte is followed by a look for the
end. -/
def lookingLayout : Layout :=
  .group ⟨0, some ⟨"s", "s", 0⟩, .big, ⟨0, 1, 1⟩⟩ (some .unbounded)
    (.item ⟨1, some ⟨"s.a", "a", 1⟩, .big, ⟨8, 1, 9⟩⟩ (.value (.fixed .byte) none)
      (.item ⟨2, some ⟨"s.b", "b", 2⟩, .big, ⟨16, 1, 17⟩⟩ (.value (.fixed .byte) none) .done))
    ⟨24, 1, 25⟩ .done

/-- A device that serves three bytes as two chunks with an interruption between. -/
def brokenDevice : Device := ⟨[.chunk 1 [2], .interrupted, .chunk 3 []], some "source failed"⟩

/-- The look for the end behind the third byte meets the failure. -/
theorem read_of_broken_device :
    let c : Codec := ⟨lookingLayout, { lenient := true }⟩
    compile {} "s [_] \x7b byte a; byte b; \x7d" = .ok ⟨"s [_] \x7b byte a; byte b; \x7d", c.layout⟩ ∧
      brokenDevice.ReadsAs brokenDevice.source ∧
      (c.read none brokenDevice.source).result ≠ (c.read none (.ofBytes [1, 2, 3])).result ∧
      ∃ e, (c.read none brokenDevice.source).result = .error e ∧ e.kind = .device := by
  intro c
  have hcompile : compile {} "s [_] \x7b byte a; byte b; \x7d" =
      .ok ⟨"s [_] \x7b byte a; byte b; \x7d", lookingLayout⟩ := by cbv
  have hplain : (c.read none (.ofBytes [1, 2, 3])).result =
      .ok (.unnamed (.struct [.new (some ⟨"s", "s", 0⟩) (.list [
        .struct [.new (some ⟨"s.a", "a", 1⟩) (.byte 1), .new (some ⟨"s.b", "b", 2⟩) (.byte 2)],
        .struct [.new (some ⟨"s.a", "a", 1⟩) (.byte 3)]])])) := by cbv
  have hfailing : (c.read none brokenDevice.source).result =
      .error (.device "source failed") := by cbv
  have hne : (c.read none brokenDevice.source).result ≠
      (c.read none (.ofBytes [1, 2, 3])).result := by
    rw [hplain, hfailing]
    intro h
    cases h
  have hcustom : c.layout.customUses = [] := rfl
  have hbytes : brokenDevice.bytes = [1, 2, 3].take 3 := rfl
  have hfailure : brokenDevice.failure = some "source failed" := rfl
  obtain ⟨hreads, heq | herror⟩ : brokenDevice.ReadsAs brokenDevice.source ∧
      ((c.read none brokenDevice.source).result = (c.read none (.ofBytes [1, 2, 3])).result ∨
        ∃ e, (c.read none brokenDevice.source).result = .error e ∧ e.kind = .device) :=
    read_of_failing_device hcustom hbytes hfailure
  · exact absurd heq hne
  · exact ⟨hcompile, hreads, hne, herror⟩

end Codec

end RecordLayout
