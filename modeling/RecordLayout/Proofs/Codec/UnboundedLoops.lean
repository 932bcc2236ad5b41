import RecordLayout.Proofs.Pass.IdleErrors

/-!
# The loops of a compiled block

A compiled block has three kinds of loops up to the end of the stream: over single bytes, over other
values, and over structures. Whatever the elements are made of, directives that move nothing, arrays
without elements, resets, values of custom types, each loop comes to an end, and it is the element
that takes nothing which is reported.
-/

namespace RecordLayout

namespace Decode

variable {α : Type} {ctx : PassContext} {head : Header} {s s₀ : PassState Reader}

/-- The loop comes to an end. Where nobody else makes up the error of an element that takes nothing,
it is only had for such an element. -/
def Loop.Sure (loop : Loop α) (idle : Error) (modest : Prop) (s : PassState Reader) : Prop :=
  ∃ begun, loop.Ends s (loop.run idle s) begun ∧
    (modest → ∀ e u, loop.run idle s = .error e u → e.IsIdle → ∃ t ∈ begun, loop.Idles t)

/-- A loop whose elements go forward ends, and only such a loop says that an element takes nothing.
-/
theorem Loop.Advances.sure {loop : Loop α} (h : loop.Advances) {idle : Error}
    (hidle : loop.idle = none ∨ loop.idle = some idle) {modest : Prop}
    (hmodest : modest → Spares loop.element) (hs : s.stream.Sound) : loop.Sure idle modest s := by
  obtain ⟨begun, hends⟩ := h.ends hidle hs
  refine ⟨begun, hends, fun hm e u hrun he => ?_⟩
  rcases hends.fails e u hrun with ⟨t, hlook⟩ | ⟨t, -, hfails⟩ | hidles
  · exact absurd he (PassM.spares_onStream (Reader.spares_atEndFor _ _) _ _ _ hlook)
  · exact absurd he (hmodest hm _ _ _ hfails)
  · exact hidles

/-- An unbounded array of values is what its loop gives, and the loop comes to an end, if it begins in
this state. -/
def ValuesEnd (ctx : PassContext) (head : Header) (type : ElementType) (s : PassState Reader) : Prop :=
  ∀ s₀ width, PassM.bitWidth ctx type s₀ = .ok width s →
    if type.isByte then
      value ctx head type (some .unbounded) s₀ =
          (.bytes <$> Prod.fst <$> (byteLoop ctx).run (.idleElement type.name)) s ∧
        (byteLoop ctx).Sure (.idleElement type.name) True s
    else
      value ctx head type (some .unbounded) s₀ =
          ((fun found => .list found.1) <$>
            (valueLoop ctx head type width).run (.idleElement type.name)) s ∧
        (valueLoop ctx head type width).Sure (.idleElement type.name)
          (∀ use extra, type = .custom use extra → use.Modest ctx) s

/-- The same of an unbounded array of structures. -/
def StructsEnd (ctx : PassContext) (head : Header) (body : Layout) (s : PassState Reader) : Prop :=
  group ctx head (some .unbounded) body.certainBits (fields ctx body) s =
      ((fun found => (.list found.1, found.2)) <$>
        (structLoop ctx head body).run (.idleStructure (head.describe Kind.opening.name))) s ∧
    (structLoop ctx head body).Sure (.idleStructure (head.describe Kind.opening.name))
      (∀ use ∈ body.customUses, use.Modest ctx) s

/-- Every unbounded array of a layout is what its loop gives, and the loop comes to an end, if it
begins in this state. -/
def LoopsEnd (ctx : PassContext) (s : PassState Reader) : Layout → Prop
  | .done => True
  | .item head decl rest =>
    (∀ type, decl = .value type (some .unbounded) → ValuesEnd ctx head type s) ∧ LoopsEnd ctx s rest
  | .group head length body _ rest =>
    (length = some .unbounded → StructsEnd ctx head body s) ∧ LoopsEnd ctx s body ∧
      LoopsEnd ctx s rest

/-- An array of values either looks at its elements or has bytes, which always take something. -/
theorem valuesEnd (type : ElementType) (hs : s.stream.Sound) : ValuesEnd ctx head type s := by
  intro s₀ width hwidth
  by_cases hbyte : type.isByte = true
  · rw [if_pos hbyte]
    constructor
    · rw [value, bind_of_ok hwidth]
      simp only [hbyte, if_true]
      rfl
    · exact advances_byteLoop.sure (.inl rfl)
        (fun _ => (PassM.spares_onStream (Reader.spares_readByte _)).map _) hs
  · rw [if_neg hbyte]
    constructor
    · rw [value, bind_of_ok hwidth]
      simp only [hbyte]
      rfl
    · exact (advances_valueLoop hwidth).sure (.inr rfl)
        (fun hmodest => (spares_element width hmodest).map _) hs

/-- In a structure without an unbounded array nobody else says that an element takes nothing. -/
theorem structsEnd {body : Layout} (hbounded : body.endless = false) (hs : s.stream.Sound) :
    StructsEnd ctx head body s :=
  ⟨rfl, (advances_structLoop body).sure (.inr rfl)
    (fun hmodest => (spares_fields hbounded hmodest).map _) hs⟩

/-- Structures that are repeated have no unbounded array in them, so that the error of an element
that takes nothing is theirs. -/
theorem loopsEnd_of_terminal {l : Layout} (hterminal : l.Terminal) (hs : s.stream.Sound) :
    LoopsEnd ctx s l := by
  induction l with
  | done => trivial
  | item head decl rest ih => exact ⟨fun type _ => valuesEnd type hs, ih hterminal.2⟩
  | group head length body closing rest ihbody ihrest =>
    obtain ⟨-, honce, hbody, hrest⟩ := hterminal
    exact ⟨fun hlength => structsEnd (honce (by rw [hlength]; rfl)) hs, ihbody hbody, ihrest hrest⟩

end Decode

namespace Codec

open Decode

/-- The loops of a compiled block come to an end, on every source and whatever its custom types do.
A pass begins at the front of the source and goes forward; in whatever state it comes to an unbounded
array, the loop that reads this makes at most as many rounds as there are bits ahead, since every
round that lets it go on leaves fewer, and it has the error of an element that takes nothing exactly
for such an element. -/
theorem unbounded_loops_end {options : CompileOptions} {script : String} {schema : Schema}
    (hcompile : compile options script = .ok schema) (ctx : PassContext) (source : Source) :
    Goes (.ofSource source) ⟨.ofSource source, .empty, []⟩ ∧
    (∀ l, Keeps (Goes (.ofSource source)) (fields ctx l)) ∧
    ∀ s, Goes (.ofSource source) s → LoopsEnd ctx s schema.layout := by
  refine ⟨.refl (Reader.sound_ofSource source), fun l => ?_, fun s hs => ?_⟩
  · exact forward_parts.fields (fun use _ => forward_custom use) (fun _ => trivial) fun _ => trivial
  · exact loopsEnd_of_terminal (compile_shape hcompile).2 hs.sound

/-- A structure that only computes a value, so that it takes nothing. -/
def idleBody : Layout :=
  .item ⟨1, some ⟨"s.v", "v", 1⟩, .big, ⟨8, 1, 9⟩⟩ (.computed (.const 1)) .done

/-- An unbounded array of it. -/
def idleLayout : Layout :=
  .group ⟨0, some ⟨"s", "s", 0⟩, .big, ⟨0, 1, 1⟩⟩ (some .unbounded) idleBody ⟨17, 1, 18⟩ .done

/-- One byte allows its loop eight rounds at most, and the first structure is reported. -/
theorem unbounded_loops_end_idle :
    compile {} "s [_] \x7b val:1 v; \x7d" = .ok ⟨"s [_] \x7b val:1 v; \x7d", idleLayout⟩ ∧
      ∃ begun u, (structLoop ⟨{}, none⟩ ⟨0, some ⟨"s", "s", 0⟩, .big, ⟨0, 1, 1⟩⟩ idleBody).Ends
          ⟨.ofSource (.ofBytes [7]), .empty, []⟩ (.error (.idleStructure "s") u) begun ∧
        begun.length ≤ 8 := by
  have hcompile : compile {} "s [_] \x7b val:1 v; \x7d" =
      .ok ⟨"s [_] \x7b val:1 v; \x7d", idleLayout⟩ := by cbv
  obtain ⟨hstart, -, hloops⟩ := unbounded_loops_end hcompile ⟨{}, none⟩ (.ofBytes [7])
  obtain ⟨-, begun, hends, -⟩ := (hloops _ hstart).1 rfl
  have hrun : (structLoop ⟨{}, none⟩ ⟨0, some ⟨"s", "s", 0⟩, .big, ⟨0, 1, 1⟩⟩ idleBody).run
      (.idleStructure ((⟨0, some ⟨"s", "s", 0⟩, .big, ⟨0, 1, 1⟩⟩ : Header).describe
        Kind.opening.name)) ⟨.ofSource (.ofBytes [7]), .empty, []⟩ =
      .error (.idleStructure "s")
        ⟨⟨⟨[], none⟩, some 7, 0, 8, 0, 0, 0⟩, ⟨[(1, 1)]⟩, []⟩ := by cbv
  rw [hrun] at hends
  exact ⟨hcompile, begun, _, hends, hends.bounded⟩

end Codec

end RecordLayout
