import RecordLayout.Proofs.Codec.Packing
import RecordLayout.Proofs.Steps.InStep

/-!
# Trees and the passes that write them

The items of a tree are laid out before the pass begins and wait in one queue, whatever structures
and arrays they belong to. The pass never takes one that is not meant for the declaration it has come
to: not in nested arrays, not behind arrays with fewer elements than their length, and not in a tree
that ends early.
-/

namespace RecordLayout.Codec

/-- Writes items with an eye on them. -/
def takingWrite (c : Codec) (resolver : Option Resolver) (items : List Item) (sink : Sink) :
    EStateM.Result Error TakingState Unit :=
  Encode.Taking.record (c.context resolver) c.layout ⟨⟨⟨.ofSink sink, items⟩, .empty, []⟩, []⟩

section

variable {c : Codec} {resolver : Option Resolver} {tree : Field} {items : List Item} {whole : Bool}
  {sink : Sink}

/-- The write that notes what it takes is the write of the tree. -/
theorem makes_takingWrite (hlaid : Item.ofTree c.layout tree = .ok (items, whole)) :
    Encode.Taking.Makes (c.takingWrite resolver items sink) (c.writeTree resolver tree sink) := by
  unfold writeTree
  rw [hlaid]
  exact (Encode.Taking.does_record c.layout).makes _

/-- The whole write is in step with the items of the tree. -/
theorem comes_takingWrite (hlaid : Item.ofTree c.layout tree = .ok (items, whole)) :
    Encode.Taking.Comes (∀ use ∈ c.layout.customUses, use.MindsItsOwn (c.context resolver))
      (fun _ => True) (Spot.ofTree c.layout tree).1 []
      ⟨⟨⟨.ofSink sink, items⟩, .empty, []⟩, []⟩ (c.takingWrite resolver items sink) := by
  have hbare := Spot.bare_ofTree hlaid
  unfold Item.ofTree at hlaid
  split at hlaid
  · rename_i fields hfields
    simp only [Spot.ofTree, hfields] at hbare ⊢
    exact Encode.Taking.comes_record id (congrArg Prod.fst hbare).symm
  · cases hlaid

end

/-- A tree that the layout accepts, complete or not, is written in step with the items it is laid out
as. Each of them has a spot of its own: the declaration that it is meant for, in certain elements of
the structure arrays around it. Whatever the pass does and wherever it ends, it has taken a front part
of the items, each exactly at its spot, and the rest of them is left; a pass that succeeds has taken
them all. A declaration that takes values takes no number of elements, so none ever finds the number
of elements in the place of a value, unless a custom type makes this up. -/
theorem tree_taken_in_step {options : CompileOptions} {source : String} {schema : Schema}
    (hcompile : compile options source = .ok schema) (codecOptions : CodecOptions)
    (resolver : Option Resolver) {tree : Field} {items : List Item} {whole : Bool}
    (hlaid : Item.ofTree schema.layout tree = .ok (items, whole)) (sink : Sink) :
    let l := schema.layout
    let c : Codec := ⟨l, codecOptions⟩
    let laid := (Spot.ofTree l tree).1
    let run := c.takingWrite resolver items sink
    let s := stateOf run
    (laid.map Prod.snd = items ∧ (laid.map Prod.fst).Nodup ∧
      (∀ p ∈ laid, l.Wants p.1.declaration p.2) ∧
      ∀ i v n, l.Wants i (.value v) → ¬ l.Wants i (.elements n)) ∧
    Encode.Taking.Makes run (c.writeTree resolver tree sink) ∧
    (∃ rest, laid = s.taken ++ rest ∧ s.pass.stream.items = rest.map Prod.snd) ∧
    (resultOf run = .ok () → s.taken = laid) ∧
    ((∀ use ∈ l.customUses, use.MindsItsOwn (c.context resolver)) → ∀ declaration,
      (c.writeTree resolver tree sink).result ≠ .error (.foundArray declaration)) := by
  intro l c laid run s
  have hscoped := compile_scoped hcompile
  have hbare : laid.map Prod.snd = items := congrArg Prod.fst (Spot.bare_ofTree hlaid)
  have hmakes : Encode.Taking.Makes run (c.writeTree resolver tree sink) := makes_takingWrite hlaid
  have hcomes : Encode.Taking.Comes (∀ use ∈ l.customUses, use.MindsItsOwn (c.context resolver))
      (fun _ => True) laid [] ⟨⟨⟨.ofSink sink, items⟩, .empty, []⟩, []⟩ run := comes_takingWrite hlaid
  refine ⟨⟨hbare, Spot.nodup_ofTree hscoped tree, Spot.wants_ofTree l tree,
    fun i v n h => h.not_elements hscoped⟩, hmakes, ?_, fun hdone => ?_, fun hown declaration => ?_⟩
  -- The items taken are in front of those left, however the run ends.
  · obtain ⟨rest, ⟨front, hlaid, htaken⟩, hitems⟩ := hcomes.takes
    rw [List.nil_append] at htaken
    exact ⟨rest, hlaid.trans (congrArg (· ++ rest) htaken.symm), hitems⟩
  · change resultOf run = .ok () at hdone
    cases hrun : run with
    | error e s' =>
      rw [hrun] at hdone
      cases hdone
    | ok u s' =>
      rw [hrun] at hcomes
      obtain ⟨rest, ⟨⟨front, hlaid, htaken⟩, -⟩, hrest⟩ := hcomes
      cases hrest trivial
      rw [List.append_nil] at hlaid
      have hstate : s = s' := congrArg stateOf hrun
      rw [hstate, htaken, List.nil_append, hlaid]
  · rw [← hmakes.result]
    intro hfound
    cases hrun : run with
    | ok u s' =>
      rw [hrun] at hfound
      cases hfound
    | error e s' =>
      rw [hrun] at hcomes hfound
      cases hfound
      exact hcomes.2 hown

/-- A tree that ends in the second of its rows, behind the first element of an array inside it. -/
def brokenRows : Field :=
  .unnamed (.struct [.new (some ⟨"s", "s", 0⟩) (.list [row 1 [5],
    .struct [.new (some ⟨"s.n", "n", 1⟩) (.byte 2), .new (some ⟨"s.v", "v", 2⟩) (.long 2),
      .new (some ⟨"s.t", "t", 3⟩) (.list [.struct [.new (some ⟨"s.t.b", "b", 4⟩) (.bit 7)],
        .struct []])]])])

/-- A lenient pass takes what there is of it: in the second row the number of elements and the only
one of them. -/
theorem tree_taken_in_step_brokenRows :
    compile {} rowsSource = .ok ⟨rowsSource, rowsLayout⟩ ∧
      Item.ofTree rowsLayout brokenRows = .ok ([.elements 2, .value (.byte 1), .elements 1,
        .value (.bit 5), .value (.byte 2), .elements 2, .value (.bit 7)], false) ∧
      (stateOf (takingWrite ⟨rowsLayout, ⟨.lsb0, true, false⟩⟩ none [.elements 2, .value (.byte 1),
        .elements 1, .value (.bit 5), .value (.byte 2), .elements 2, .value (.bit 7)] .empty)).taken =
        [(⟨[], 0⟩, .elements 2), (⟨[(0, 0)], 1⟩, .value (.byte 1)), (⟨[(0, 0)], 3⟩, .elements 1),
          (⟨[(3, 0), (0, 0)], 4⟩, .value (.bit 5)), (⟨[(0, 1)], 1⟩, .value (.byte 2)),
          (⟨[(0, 1)], 3⟩, .elements 2), (⟨[(3, 0), (0, 1)], 4⟩, .value (.bit 7))] := by
  have hcompile : compile {} rowsSource = .ok ⟨rowsSource, rowsLayout⟩ := by cbv
  have hlaid : Item.ofTree rowsLayout brokenRows = .ok ([.elements 2, .value (.byte 1), .elements 1,
      .value (.bit 5), .value (.byte 2), .elements 2, .value (.bit 7)], false) := by cbv
  obtain ⟨-, hmakes, -, hall, -⟩ :=
    tree_taken_in_step hcompile ⟨.lsb0, true, false⟩ none hlaid .empty
  have hdone : (writeTree ⟨rowsLayout, ⟨.lsb0, true, false⟩⟩ none brokenRows .empty).result =
      .ok () := by cbv
  have htaken := hall (hmakes.result.trans hdone)
  have hspots : (Spot.ofTree rowsLayout brokenRows).1 =
      [(⟨[], 0⟩, .elements 2), (⟨[(0, 0)], 1⟩, .value (.byte 1)), (⟨[(0, 0)], 3⟩, .elements 1),
        (⟨[(3, 0), (0, 0)], 4⟩, .value (.bit 5)), (⟨[(0, 1)], 1⟩, .value (.byte 2)),
        (⟨[(0, 1)], 3⟩, .elements 2), (⟨[(3, 0), (0, 1)], 4⟩, .value (.bit 7))] := by cbv
  exact ⟨hcompile, hlaid, htaken.trans hspots⟩

end RecordLayout.Codec
