import RecordLayout.Proofs.Codec.WrittenNodes
import RecordLayout.Proofs.Layout.Shape
import RecordLayout.Proofs.Pass.Untold

/-!
# Writing the values of a tree

A record can be written from a tree or from the values of the tree in document order. The values do
not tell where an array of structures ends; still a strict codec writes the same bytes for both, if
the tree is complete and each element of an unbounded array holds a value.
-/

namespace RecordLayout

/-- Without a gap all values stand in front of it. -/
theorem beforeGap_of_whole {outline : List (Option Value)} (h : none ∉ outline) :
    beforeGap outline = outline.reduceOption := by
  induction outline with
  | nil => rfl
  | cons mark rest ih =>
    cases mark with
    | none => exact absurd List.mem_cons_self h
    | some v => exact congrArg (v :: ·) (ih fun hrest => h (List.mem_cons_of_mem _ hrest))

namespace Layout

/-- Each element of an unbounded array of structures holds a value. -/
def Supplied : Layout → List Field → Prop
  | done, _ => True
  | item _ decl rest, nodes => rest.Supplied (if decl.kind.isDirective then nodes else nodes.tail)
  | group _ _ _ _ _, [] => True
  | group _ length body _ rest, node :: nodes =>
    (∀ fields ∈ node.value.structures, body.Supplied fields ∧
      (length = some .unbounded → (body.outline fields).reduceOption ≠ [])) ∧
      rest.Supplied nodes

instance decidableSupplied : (l : Layout) → (nodes : List Field) → Decidable (l.Supplied nodes)
  | done, _ => .isTrue trivial
  | item _ _ rest, _ => decidableSupplied rest _
  | group _ _ _ _ _, [] => .isTrue trivial
  | group _ length body _ rest, node :: nodes =>
    have := decidableSupplied body
    have := decidableSupplied rest nodes
    inferInstanceAs (Decidable ((∀ fields ∈ node.value.structures, body.Supplied fields ∧
      (length = some .unbounded → (body.outline fields).reduceOption ≠ [])) ∧
      rest.Supplied nodes))

variable {l : Layout} {nodes : List Field} {items : List Item}

/-- The values among the items of complete nodes are those of the nodes. -/
theorem values_of_complete (h : Item.ofFields l nodes = .ok (items, true)) :
    Item.values items = (l.outline nodes).reduceOption := by
  obtain ⟨hvalues, hwhole⟩ := outlined_ofFields h
  rw [Item.filter_isValue] at hvalues
  have hinj : Function.Injective Item.value := fun v w h => by cases h; rfl
  rw [List.map_injective_iff.mpr hinj hvalues]
  exact beforeGap_of_whole (hwhole.mp rfl)

end Layout

namespace Encode

/-- A strict pass over the values of complete nodes does what it does with their items. -/
theorem packs_fields {ctx : PassContext} (hstrict : ctx.options.lenient = false) {l : Layout}
    (hterminal : l.Terminal) {nodes : List Field} {items : List Item}
    (hlaid : Item.ofFields l nodes = .ok (items, true)) (hsupplied : l.Supplied nodes) :
    Packs .goOn l.endless items (fields ctx l) (fields ctx l) := by
  induction l generalizing nodes items with
  | done =>
    cases nodes with
    | nil =>
      cases hlaid
      exact .pure _ _
    | cons => cases hlaid
  | item head decl rest ih =>
    obtain ⟨node, more, hmore, rfl⟩ := Item.ofFields_item hlaid
    refine Packs.mono ?_ fun h : rest.endless = true => by rw [Layout.endless, h, Bool.or_true]
    rw [← List.nil_append (Item.ofNode decl node ++ more)]
    refine (packs_endsBefore hstrict _).seq ?_
    exact (packs_item decl node).seq (ih hterminal.2 hmore hsupplied)
  | group head length body closing rest ihbody ihrest =>
    obtain ⟨node, later, first, more, rfl, hfirst, hmore, rfl⟩ := Item.ofFields_group hlaid
    obtain ⟨hlast, honce, hbody, hrest⟩ := hterminal
    obtain ⟨hstructures, hlater⟩ := hsupplied
    have hgroup : Packs .goOn (length == some .unbounded || body.endless) first
        (group ctx head length (fields ctx body)) (group ctx head length (fields ctx body)) := by
      refine packs_group hstrict honce (fun nodes hnodes its hits => ?_) hfirst
      obtain ⟨hsupplied, hsome⟩ := hstructures nodes hnodes
      refine ⟨ihbody hbody hits hsupplied, fun h => ?_⟩
      rw [Layout.values_of_complete hits]
      exact hsome h
    have hnone : (length == some .unbounded || body.endless) = true → more = [] := by
      intro h
      rw [hlast (by simpa using h)] at hmore
      cases later with
      | nil => cases hmore; rfl
      | cons => cases hmore
    rw [← List.nil_append (first ++ more)]
    refine (packs_endsBefore hstrict _).seq ?_
    exact hgroup.bind hnone (ihrest hrest hmore hlater)

end Encode

namespace Codec

variable {c : Codec} {resolver : Option Resolver} {tree : Field} {fields : List Field}
  {items : List Item} {out : List UInt8}

/-- The bytes that a tree is written to are those that its values in document order are written to.
-/
theorem encodeValues_of_encode {options : CompileOptions} {source : String} {schema : Schema}
    (hcompile : compile options source = .ok schema) (hlayout : c.layout = schema.layout)
    (hstrict : c.options.lenient = false) (htree : tree.value = .struct fields)
    (hcomplete : Item.ofFields c.layout fields = .ok (items, true))
    (hsupplied : c.layout.Supplied fields) (hencode : c.encode resolver tree = .ok out) :
    c.encodeValues resolver (c.layout.outline fields).reduceOption = .ok out := by
  obtain ⟨-, hterminal⟩ := compile_shape hcompile
  rw [← hlayout] at hterminal
  obtain ⟨laid, whole, flow, s, w, hlaid, hfields, hempty, hfinish, rfl⟩ :=
    encode_eq_ok_iff.mp hencode
  simp only [Item.ofTree, htree] at hlaid
  cases hlaid.symm.trans hcomplete
  have hpacks : Encode.Packs Flow.goOn c.layout.endless items
      (Encode.fields (c.context resolver) c.layout) (Encode.fields (c.context resolver) c.layout) :=
    Encode.packs_fields hstrict hterminal hcomplete hsupplied
  have hstart : Encode.Beside (items ++ []) (Item.values items ++ [])
      (writeStart items .empty) (writeStart ((Item.values items).map .value) .empty) := by
    rw [List.append_nil, List.append_nil]
    exact ⟨⟨rfl, rfl, rfl⟩, rfl⟩
  obtain ⟨rfl, s', hfields', ⟨hwriter, -, hleft⟩, -⟩ :=
    hpacks _ _ _ _ (fun _ => rfl) hstart _ _ hfields
  rw [← hwriter] at hfinish
  rw [← Layout.values_of_complete hcomplete]
  exact encodeValues_eq_ok_iff.mpr ⟨.goOn, s', w, hfields', hleft, hfinish, rfl⟩

def rowsSource : String := "s [_] { byte n; val:(n) v; t [n] { bit:3 b; } align; }"

/-- The layout of an unbounded array whose elements have an array of their own. -/
def rowsLayout : Layout :=
  .group ⟨0, some ⟨"s", "s", 0⟩, .big, ⟨0, 1, 1⟩⟩ (some .unbounded)
    (.item ⟨1, some ⟨"s.n", "n", 1⟩, .big, ⟨8, 1, 9⟩⟩ (.value (.fixed .byte) none)
      (.item ⟨2, some ⟨"s.v", "v", 2⟩, .big, ⟨16, 1, 17⟩⟩
        (.computed (.computed (.field ⟨"s.n", "n", 1⟩)))
        (.group ⟨3, some ⟨"s.t", "t", 3⟩, .big, ⟨27, 1, 28⟩⟩
          (some (.computed (.field ⟨"s.n", "n", 1⟩)))
          (.item ⟨4, some ⟨"s.t.b", "b", 4⟩, .big, ⟨35, 1, 36⟩⟩ (.value (.bit (.const 3)) none)
            .done)
          ⟨44, 1, 45⟩
          (.item ⟨6, none, .big, ⟨46, 1, 47⟩⟩ (.align (.const 1)) .done))))
    ⟨53, 1, 54⟩ .done

/-- An element with these bits. -/
def row (n : Int8) (bits : List UInt8) : Value :=
  .struct [.new (some ⟨"s.n", "n", 1⟩) (.byte n), .new (some ⟨"s.v", "v", 2⟩) (.long n.toInt64),
    .new (some ⟨"s.t", "t", 3⟩)
      (.list (bits.map fun b => .struct [.new (some ⟨"s.t.b", "b", 4⟩) (.bit b)]))]

def rows : List Field := [.new (some ⟨"s", "s", 0⟩) (.list [row 2 [7, 1], row 0 []])]

/-- Neither the number of rows nor the numbers of bits in them are among the values. -/
theorem encodeValues_of_rows :
    compile {} rowsSource = .ok ⟨rowsSource, rowsLayout⟩ ∧
      encode ⟨rowsLayout, {}⟩ none (.unnamed (.struct rows)) = .ok [2, 15, 0] ∧
      encodeValues ⟨rowsLayout, {}⟩ none [.byte 2, .bit 7, .bit 1, .byte 0] = .ok [2, 15, 0] := by
  have hcompile : compile {} rowsSource = .ok ⟨rowsSource, rowsLayout⟩ := by cbv
  have hencode : encode ⟨rowsLayout, {}⟩ none (.unnamed (.struct rows)) = .ok [2, 15, 0] := by cbv
  have hcomplete : Item.ofFields rowsLayout rows =
      .ok ([.elements 2, .value (.byte 2), .elements 2, .value (.bit 7), .value (.bit 1),
        .value (.byte 0), .elements 0], true) := by cbv
  have hsupplied : rowsLayout.Supplied rows := by decide
  have hvalues := encodeValues_of_encode (c := ⟨rowsLayout, {}⟩) hcompile rfl rfl rfl hcomplete
    hsupplied hencode
  exact ⟨hcompile, hencode, hvalues⟩

end Codec

end RecordLayout
