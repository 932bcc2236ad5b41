import RecordLayout.Proofs.Codec.DecodeEncode
import RecordLayout.Proofs.Layout.Conforming
import RecordLayout.Proofs.Table.WellFormed

/-!
# Decoded trees conform to their layouts

A read that is not lenient gives one node for each declaration that is no directive, in order, with
the name of the declaration and a value in the form of its type. So the node of a declaration outside
every structure array is found by its path, and a walk comes to it once.
-/

namespace RecordLayout

/-- The paths of a compiled layout differ. -/
theorem paths_nodup_of_compile {options : CompileOptions} {source : String} {schema : Schema}
    (h : compile options source = .ok schema) :
    (schema.layout.infos.map FieldInfo.path).Nodup :=
  (Block.wellFormed_block (compile_scoped h)).paths

namespace Codec

variable {c : Codec} {resolver : Option Resolver} {data : List UInt8} {d : Decoded}

/-- A record that is not read leniently is complete, and its fields conform to the layout. -/
theorem conforms_of_decoded (hcustom : c.layout.customUses = [])
    (hstrict : c.options.lenient = false) (hdecode : c.decode resolver data = .ok d) :
    ∃ fields p, d.tree = .unnamed (.struct fields) ∧
      c.layout.Conforms (c.context resolver) .start fields p := by
  obtain ⟨pieces, rest, htranscript⟩ := exists_transcript hcustom hdecode
  obtain ⟨fields, place, htree, hspells⟩ := htranscript.spells
  cases place with
  | some p => exact ⟨fields, p, htree, hspells.conforms⟩
  | none =>
    obtain ⟨hlenient, -⟩ := hspells.holdsValue_of_none
    rw [context, hstrict] at hlenient
    cases hlenient

/-- The fields of a decoded tree are those that the layout says, in order and at every depth. A named
declaration that no structure array surrounds has one node in the tree; a walk visits its path once,
with the value of that node, and a search for the path finds the node. -/
theorem decoded_conforms {options : CompileOptions} {source : String} {schema : Schema}
    (hcompile : compile options source = .ok schema) (hlayout : c.layout = schema.layout)
    (hcustom : schema.layout.customUses = []) (hstrict : c.options.lenient = false)
    (hdecode : c.decode resolver data = .ok d) :
    (∃ fields p, d.tree = .unnamed (.struct fields) ∧
        c.layout.Conforms (c.context resolver) .start fields p ∧
        fields.map Field.info = c.layout.titles) ∧
      ∀ site ∈ c.layout.sites [], site.arrays = [] → ∀ info, site.name = some info →
        ∃ node, d.tree.value.nested.filter (·.info == some info) = [node] ∧
          d.tree.walk.filter (·.1 == info.path) = [(info.path, node.value)] ∧
          d.tree.find? info.path = some node := by
  have hpaths := paths_nodup_of_compile hcompile
  have huntitled := compile_untitled hcompile
  rw [← hlayout] at hcustom hpaths huntitled
  obtain ⟨fields, p, htree, hconforms⟩ := conforms_of_decoded hcustom hstrict hdecode
  refine ⟨⟨fields, p, htree, hconforms, hconforms.map_info⟩, ?_⟩
  intro site hsite harrays info hname
  obtain ⟨node, honce, hinfo⟩ := hconforms.once hpaths huntitled hsite harrays hname
  have hroot : d.tree.value.nested.filter (·.path == some info.path) = [node] := by
    rw [htree]
    exact honce
  have hfound := Field.walk_and_find?_of_once hinfo hroot
  refine ⟨node, ?_, hfound⟩
  -- a node with the name has its path
  have hsame : d.tree.value.nested.filter (·.info == some info) =
      (d.tree.value.nested.filter (·.path == some info.path)).filter (·.info == some info) := by
    rw [List.filter_filter]
    apply List.filter_congr
    intro f _
    by_cases hf : f.info = some info
    · simp [hf, Field.path]
    · simp [hf]
  rw [hsame, hroot, List.filter_cons_of_pos (by simp [hinfo]), List.filter_nil]

/-- A layout with a structure, and an array of structures with a computed length. -/
def nestedLayout : Layout :=
  .group ⟨0, some ⟨"h", "h", 0⟩, .big, ⟨0, 1, 1⟩⟩ none
    (.item ⟨1, some ⟨"h.n", "n", 1⟩, .big, ⟨4, 1, 5⟩⟩ (.value (.fixed .byte) none) .done)
    ⟨12, 1, 13⟩
    (.group ⟨3, some ⟨"t", "t", 3⟩, .big, ⟨14, 1, 15⟩⟩
      (some (.computed (.field ⟨"h.n", "n", 1⟩)))
      (.item ⟨4, some ⟨"t.a", "a", 4⟩, .big, ⟨24, 1, 25⟩⟩ (.value (.bit (.const 3)) none)
        (.item ⟨5, none, .big, ⟨33, 1, 34⟩⟩ (.align (.const 1)) .done))
      ⟨40, 1, 41⟩ .done)

/-- The tree of three bytes. -/
def nestedTree : Field :=
  .unnamed (.struct [
    .new (some ⟨"h", "h", 0⟩) (.struct [.new (some ⟨"h.n", "n", 1⟩) (.byte 2)]),
    .new (some ⟨"t", "t", 3⟩) (.list [
      .struct [.new (some ⟨"t.a", "a", 4⟩) (.bit 5)],
      .struct [.new (some ⟨"t.a", "a", 4⟩) (.bit 6)]])])

/-- The number of elements is found below its structure. -/
theorem decoded_nested_conforms :
    decode ⟨nestedLayout, {}⟩ none [2, 5, 6] = .ok ⟨nestedTree, 3⟩ ∧
      (∃ fields p, nestedTree = .unnamed (.struct fields) ∧
        nestedLayout.Conforms ⟨{}, none⟩ .start fields p ∧
        fields.map Field.info = nestedLayout.titles) ∧
      ∃ node, nestedTree.value.nested.filter (·.info == some ⟨"h.n", "n", 1⟩) = [node] ∧
        nestedTree.walk.filter (·.1 == "h.n") = [("h.n", node.value)] ∧
        nestedTree.find? "h.n" = some node := by
  have hcompile : compile {} "h \x7b byte n; \x7d t [h.n] \x7b bit:3 a; align; \x7d" =
      .ok ⟨"h \x7b byte n; \x7d t [h.n] \x7b bit:3 a; align; \x7d", nestedLayout⟩ := by cbv
  have hdecode : decode ⟨nestedLayout, {}⟩ none [2, 5, 6] = .ok ⟨nestedTree, 3⟩ := by cbv
  have hsite : ⟨1, some ⟨"h.n", "n", 1⟩, true, []⟩ ∈ nestedLayout.sites [] := by
    rw [nestedLayout, Layout.sites, Layout.sites]
    exact List.mem_cons_of_mem _ List.mem_cons_self
  obtain ⟨hfields, hnode⟩ := decoded_conforms hcompile rfl rfl rfl hdecode
  exact ⟨hdecode, hfields, hnode _ hsite rfl _ rfl⟩

end Codec

end RecordLayout
