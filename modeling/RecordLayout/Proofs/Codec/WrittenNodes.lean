import RecordLayout.Proofs.Codec.Passes
import RecordLayout.Proofs.Pass.AnySink
import RecordLayout.Proofs.Pass.WriteSound

/-!
# The nodes that are written

Which nodes of a tree a write takes. The children of a node may end before the declarations do; a
write that succeeds has written every value before the first such place, once and in document order,
and none behind it. A value behind it is left out without an error: whatever follows is not even
compared with the layout.
-/

namespace RecordLayout

/-! ## The outline of a tree -/

namespace Layout

/-- The outlines of structures in a row. -/
def outlineElements (body : List Field → List (Option Value)) : List Value → List (Option Value)
  | [] => []
  | .struct fields :: rest => body fields ++ outlineElements body rest
  | v :: rest => some v :: outlineElements body rest

/-- The outline of a structure or an array of them. -/
def outlineGroup (length : Option Length) (body : List Field → List (Option Value)) :
    Value → List (Option Value)
  | .struct fields => if length.isNone then body fields else [some (.struct fields)]
  | .list items => if length.isSome then outlineElements body items else [some (.list items)]
  | v => [some v]

/-- The values of the nodes for a layout in document order, with a gap wherever children end before
their declarations do. A node that fits no declaration counts as a value. -/
def outline : Layout → List Field → List (Option Value)
  | done, extra => extra.map fun node => some node.value
  | item _ decl rest, nodes =>
    if decl.kind.isDirective then rest.outline nodes
    else
      match nodes with
      | [] => [none]
      | node :: nodes =>
        (if decl.kind.holdsValue then [some node.value] else []) ++ rest.outline nodes
  | group _ _ _ _ _, [] => [none]
  | group _ length body _ rest, node :: nodes =>
    outlineGroup length body.outline node.value ++ rest.outline nodes

end Layout

/-- The values before the first gap. -/
def beforeGap : List (Option Value) → List Value
  | some v :: rest => v :: beforeGap rest
  | _ => []

/-- The values behind the first gap. -/
def behindGap : List (Option Value) → List Value
  | some _ :: rest => behindGap rest
  | none :: rest => rest.reduceOption
  | [] => []

/-- The values in front of the first gap and those behind it are all of them. -/
theorem beforeGap_append_behindGap (outline : List (Option Value)) :
    beforeGap outline ++ behindGap outline = outline.reduceOption := by
  induction outline with
  | nil => rfl
  | cons mark rest ih =>
    cases mark with
    | none => rfl
    | some v => rw [beforeGap, behindGap, List.reduceOption_cons_of_some, List.cons_append, ih]

/-- What comes behind a gap is not in front of one. -/
theorem beforeGap_append_of_gap {first : List (Option Value)} (h : none ∈ first)
    (later : List (Option Value)) : beforeGap (first ++ later) = beforeGap first := by
  induction first with
  | nil => cases h
  | cons mark rest ih =>
    cases mark with
    | none => rfl
    | some v =>
      rw [List.cons_append, beforeGap, beforeGap, ih (by simpa using h)]

theorem beforeGap_append_of_whole {first : List (Option Value)} (h : none ∉ first)
    (later : List (Option Value)) :
    beforeGap (first ++ later) = beforeGap first ++ beforeGap later := by
  induction first with
  | nil => rfl
  | cons mark rest ih =>
    cases mark with
    | none => exact absurd List.mem_cons_self h
    | some v =>
      rw [List.cons_append, beforeGap, beforeGap, ih (by simpa using h), List.cons_append]

/-! ## The items of the outline -/

/-- The values of the items are those before the first gap, and the tree goes on behind it if there
is none. -/
def Outlined (laid : Item.Laid) (outline : List (Option Value)) : Prop :=
  laid.1.filter Item.isValue = (beforeGap outline).map .value ∧
    (laid.2 = true ↔ none ∉ outline)

/-- What is laid out goes on behind the first part only if that part is complete. -/
theorem Outlined.andThen {first laid : Item.Laid} {second : Unit → Except Error Item.Laid}
    {front later : List (Option Value)} (h : Outlined first front)
    (hlater : ∀ laid, second () = .ok laid → Outlined laid later)
    (hlaid : Item.andThen first second = .ok laid) : Outlined laid (front ++ later) := by
  obtain ⟨items, whole⟩ := first
  obtain ⟨hitems, hwhole⟩ := h
  cases whole with
  | false =>
    cases hlaid
    have hgap : none ∈ front := by
      by_contra hgap
      cases hwhole.mpr hgap
    refine ⟨?_, ?_⟩
    · rw [beforeGap_append_of_gap hgap]
      exact hitems
    · simp [hgap]
  | true =>
    have hgap := hwhole.mp rfl
    obtain ⟨more, hmore, hlaid⟩ := except_bind_eq_ok.mp hlaid
    cases hlaid
    obtain ⟨hitems', hwhole'⟩ := hlater more hmore
    refine ⟨?_, ?_⟩
    · rw [beforeGap_append_of_whole hgap, List.map_append, List.filter_append, hitems, hitems']
    · simp [hgap, hwhole']

/-- The elements are laid out one behind the other, as their outlines stand. -/
theorem outlined_ofElements {shape : Error} {ofBody : List Field → Except Error Item.Laid}
    {body : List Field → List (Option Value)} {values : List Value} {laid : Item.Laid}
    (hbody : ∀ nodes laid, ofBody nodes = .ok laid → Outlined laid (body nodes))
    (h : Item.ofElements shape ofBody values = .ok laid) :
    Outlined laid (Layout.outlineElements body values) := by
  induction values generalizing laid with
  | nil =>
    cases h
    exact ⟨rfl, by simp [Layout.outlineElements]⟩
  | cons v values ih =>
    cases v with
    | struct nodes =>
      obtain ⟨first, hfirst, h⟩ := except_bind_eq_ok.mp h
      exact (hbody nodes first hfirst).andThen (fun _ => ih) h
    | _ => cases h

/-- A structure array tells its number of elements first, which is no value. -/
theorem outlined_ofGroup {head : Header} {length : Option Length}
    {ofBody : List Field → Except Error Item.Laid} {body : List Field → List (Option Value)}
    {v : Value} {laid : Item.Laid}
    (hbody : ∀ nodes laid, ofBody nodes = .ok laid → Outlined laid (body nodes))
    (h : Item.ofGroup head length ofBody v = .ok laid) :
    Outlined laid (Layout.outlineGroup length body v) := by
  cases length with
  | none =>
    cases v with
    | struct nodes => exact hbody nodes laid h
    | _ => cases h
  | some l =>
    cases v with
    | list values =>
      obtain ⟨first, hfirst, h⟩ := except_bind_eq_ok.mp h
      cases h
      obtain ⟨hitems, hwhole⟩ := outlined_ofElements hbody hfirst
      exact ⟨hitems, hwhole⟩
    | _ => cases h

/-- The items of a tree are the values of its outline, up to the first gap. -/
theorem outlined_ofFields {l : Layout} {nodes : List Field} {laid : Item.Laid}
    (h : Item.ofFields l nodes = .ok laid) : Outlined laid (l.outline nodes) := by
  induction l generalizing nodes laid with
  | done =>
    cases nodes with
    | nil =>
      cases h
      exact ⟨rfl, by simp [Layout.outline]⟩
    | cons => cases h
  | item head decl rest ih =>
    unfold Item.ofFields at h
    unfold Layout.outline
    by_cases hdirective : decl.kind.isDirective = true
    · rw [if_pos hdirective] at h ⊢
      exact ih h
    · rw [if_neg hdirective] at h ⊢
      cases nodes with
      | nil =>
        cases h
        exact ⟨rfl, by simp⟩
      | cons node nodes =>
        obtain ⟨-, -, h⟩ := except_bind_eq_ok.mp h
        refine Outlined.andThen ?_ (fun _ => ih) h
        cases hholds : decl.kind.holdsValue with
        | true => simp [Outlined, Item.ofNode, hholds, Item.isValue, beforeGap]
        | false => simp [Outlined, Item.ofNode, hholds, beforeGap]
  | group head length body closing rest ihbody ihrest =>
    cases nodes with
    | nil =>
      cases h
      exact ⟨rfl, by simp [Layout.outline]⟩
    | cons node nodes =>
      obtain ⟨-, -, h⟩ := except_bind_eq_ok.mp h
      obtain ⟨first, hfirst, h⟩ := except_bind_eq_ok.mp h
      exact (outlined_ofGroup (fun _ _ => ihbody) hfirst).andThen (fun _ => ihrest) h

/-! ## What is written -/

namespace Codec

variable {c : Codec} {resolver : Option Resolver} {items : List Item} {sink : Sink} {tree : Field}

/-- The pieces that a write may leave: those of a record, or, if it is lenient, of one that is
broken off. -/
def Leaves (c : Codec) (resolver : Option Resolver) (pieces : List Piece) : Prop :=
  (∃ fields p, c.layout.Spells (c.context resolver) .start fields pieces (some p)) ∨
    (c.options.lenient = true ∧ c.layout.Begins (c.context resolver) .start pieces)

/-- A write that succeeds has put pieces behind what the sink held, and has taken all items for
them. -/
theorem exists_pieces_of_write {u : Unit} (hcustom : c.layout.customUses = [])
    (h : (c.write resolver items sink).result = .ok u) :
    ∃ pieces, c.Leaves resolver pieces ∧ Supplies items pieces [] ∧
      c.options.bitOrder.stream (c.write resolver items sink).bytes =
        c.options.bitOrder.stream sink.received.toList ++ (pieces.flatMap Piece.bits ++
          List.replicate (Bits.toByte (pieces.flatMap Piece.bits).length) false) := by
  obtain ⟨flow, s, hfields, hempty, w, hfinish, hbytes⟩ := write_eq_ok_iff.mp h
  have hstart : (writeStart items sink).Along Feed.Freed (writeStart items sink.unlimited) :=
    ⟨rfl, rfl⟩
  obtain ⟨⟨⟨writer, left⟩, numbers, asked⟩, hfreed, hstream, -⟩ :=
    Encode.fields_freed hcustom hstart hfields
  cases hstream
  replace hfinish := Writer.carries_finish.eq_ok hfinish
  obtain ⟨pieces, hleaves, hleads⟩ := Encode.fields_eq_ok hcustom
    (at_writeStart items sink.unlimited rfl rfl) hfreed
  obtain ⟨w', hfinish', hstream⟩ := Writer.finish_of_ready hleaves.adds.ready
  cases hfinish.symm.trans hfinish'
  have hsupplies := hleaves.supplies
  dsimp only at hsupplies
  rw [hempty] at hsupplies
  refine ⟨pieces, ?_, hsupplies, ?_⟩
  · cases flow with
    | stop => exact Or.inr hleads
    | goOn =>
      obtain ⟨p, ⟨fields, hspells⟩, -⟩ := hleads
      exact Or.inl ⟨fields, p, hspells⟩
  have hwritten : s.stream.writer.unlimited.written c.options.bitOrder =
      c.options.bitOrder.stream sink.received.toList ++ pieces.flatMap Piece.bits := by
    refine (hleaves.adds.written).trans (congrArg (· ++ pieces.flatMap Piece.bits) ?_)
    exact Writer.written_ofSink sink.unlimited c.options.bitOrder
  have hfill : Bits.toByte (s.stream.writer.unlimited.written c.options.bitOrder).length =
      Bits.toByte (pieces.flatMap Piece.bits).length := by
    rw [hwritten, List.length_append, BitOrder.length_stream]
    simp only [Bits.toByte]
    omega
  rw [hbytes, ← hfill, ← List.append_assoc, ← hwritten]
  exact hstream

/-- A tree that is written without an error has every value before the first gap of its outline in
the output, once and in document order, and no other. So no value was left out exactly if none
stands behind a gap. -/
theorem values_of_writeTree {u : Unit} (hcustom : c.layout.customUses = [])
    (h : (c.writeTree resolver tree sink).result = .ok u) :
    ∃ (fields : List Field) (pieces : List Piece), tree.value = .struct fields ∧
      c.Leaves resolver pieces ∧
      c.options.bitOrder.stream (c.writeTree resolver tree sink).bytes =
        c.options.bitOrder.stream sink.received.toList ++ (pieces.flatMap Piece.bits ++
          List.replicate (Bits.toByte (pieces.flatMap Piece.bits).length) false) ∧
      List.Forall₂ Item.Settles ((beforeGap (c.layout.outline fields)).map .value)
        (pieces.filter Piece.isValue) ∧
      (beforeGap (c.layout.outline fields) = (c.layout.outline fields).reduceOption ↔
        behindGap (c.layout.outline fields) = []) := by
  obtain ⟨items, whole, hlaid, hwrite⟩ := writeTree_eq_ok_iff.mp h
  obtain ⟨pieces, hleaves, hsupplies, hstream⟩ := exists_pieces_of_write hcustom hwrite
  unfold Item.ofTree at hlaid
  split at hlaid
  · rename_i fields htree
    obtain ⟨hvalues, -⟩ := outlined_ofFields hlaid
    obtain ⟨taken, htaken, hall⟩ := hsupplies.values
    rw [List.append_nil] at htaken
    subst htaken
    simp only at hvalues
    refine ⟨fields, pieces, htree, hleaves, ?_, hvalues ▸ hall, ?_⟩
    · have hlaid : Item.ofTree c.layout tree = .ok (items, whole) := by
        rw [Item.ofTree, htree]
        exact hlaid
      rw [writeTree, hlaid]
      exact hstream
    · rw [← beforeGap_append_behindGap, List.self_eq_append_right]
  · cases hlaid

def brokenSource : String := "s { byte n; val:(n) v; } t [n] { byte c; }"

/-- The layout of an array behind the structure that holds its length. -/
def brokenLayout : Layout :=
  .group ⟨0, some ⟨"s", "s", 0⟩, .big, ⟨0, 1, 1⟩⟩ none
    (.item ⟨1, some ⟨"s.n", "n", 1⟩, .big, ⟨4, 1, 5⟩⟩ (.value (.fixed .byte) none)
      (.item ⟨2, some ⟨"s.v", "v", 2⟩, .big, ⟨12, 1, 13⟩⟩
        (.computed (.computed (.field ⟨"s.n", "n", 1⟩))) .done))
    ⟨23, 1, 24⟩
    (.group ⟨4, some ⟨"t", "t", 4⟩, .big, ⟨25, 1, 26⟩⟩
      (some (.computed (.field ⟨"s.n", "n", 1⟩)))
      (.item ⟨5, some ⟨"t.c", "c", 5⟩, .big, ⟨33, 1, 34⟩⟩ (.value (.fixed .byte) none) .done)
      ⟨41, 1, 42⟩ .done)

/-- Children that lack the computed value of the structure, and have an element of the array
although the length is zero. -/
def brokenFields : List Field :=
  [.new (some ⟨"s", "s", 0⟩) (.struct [.new (some ⟨"s.n", "n", 1⟩) (.byte 0)]),
    .new (some ⟨"t", "t", 4⟩) (.list [.struct [.new (some ⟨"t.c", "c", 5⟩) (.byte 5)]])]

/-- A strict write leaves out the element without an error. -/
theorem values_of_writeTree_broken :
    compile {} brokenSource = .ok ⟨brokenSource, brokenLayout⟩ ∧
      (writeTree ⟨brokenLayout, {}⟩ none (.unnamed (.struct brokenFields)) .empty).result = .ok () ∧
      behindGap (brokenLayout.outline brokenFields) = [.byte 5] ∧
      ∃ pieces, Leaves ⟨brokenLayout, {}⟩ none pieces ∧
        List.Forall₂ Item.Settles [.value (.byte 0)] (pieces.filter Piece.isValue) := by
  have hcompile : compile {} brokenSource = .ok ⟨brokenSource, brokenLayout⟩ := by cbv
  have hwrite : (writeTree ⟨brokenLayout, {}⟩ none (.unnamed (.struct brokenFields))
      .empty).result = .ok () := by cbv
  obtain ⟨fields, pieces, htree, hleaves, -, hall, -⟩ := values_of_writeTree rfl hwrite
  cases htree
  exact ⟨hcompile, hwrite, rfl, pieces, hleaves, hall⟩

end Codec

end RecordLayout
