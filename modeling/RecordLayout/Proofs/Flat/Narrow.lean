import RecordLayout.Proofs.Layout.Scoping
import RecordLayout.Proofs.Script.TokenPlaces

/-!
# What holds while a layout is built

Between two tokens the expressions met so far name nothing but what is declared by then, no path is
declared twice, and, the names of tokens having no characters but those of names, every path has as
many bytes as characters. The braces of a structure have the byte order that is understood where none
is written.
-/

namespace RecordLayout

/-! ## Names in scope -/

theorem Expr.Knows.mono {seen seen' : List Declared} {e : Expr} (h : e.Knows seen)
    (hle : seen ⊆ seen') : e.Knows seen' := fun info hinfo => hle (h info hinfo)

/-- A new name leaves the paths distinct. -/
theorem Header.Placed.distinct {n : Nat} {seen : List Declared} {head : Header}
    (h : head.Placed n seen) (hseen : (seen.map (·.info.path)).Nodup) (numeric : Bool) :
    ((seen ++ head.declares numeric).map (·.info.path)).Nodup := by
  cases hinfo : head.info with
  | none =>
    rw [Header.declares, hinfo, Option.toList_none, List.map_nil, List.append_nil]
    exact hseen
  | some info =>
    rw [Header.declares, hinfo, Option.toList_some, List.map_append]
    refine List.nodup_append.mpr ⟨hseen, List.nodup_singleton _, ?_⟩
    intro path hpath path' hpath' heq
    obtain ⟨d, hd, rfl⟩ := List.mem_map.mp hpath
    rw [List.map_singleton, List.map_singleton, List.mem_singleton] at hpath'
    exact h.path info hinfo d hd (heq.trans hpath')

namespace Layout

variable {customs : List CustomType} {n : Nat} {seen : List Declared} {l : Layout}

/-- The expressions of a layout name what is declared before it or in it. -/
theorem Scoped.knows (h : l.Scoped customs n seen) :
    ∀ a ∈ l.exprs, a.expr.Knows (seen ++ l.declared) := by
  induction l generalizing n seen with
  | done => exact fun a ha => absurd ha List.not_mem_nil
  | item head decl rest ih =>
    obtain ⟨-, hexprs, -, hrest⟩ := h
    intro a ha
    rcases List.mem_append.mp ha with ha | ha
    · obtain ⟨e, he, rfl⟩ := List.mem_map.mp ha
      exact (hexprs e he).mono (List.subset_append_left _ _)
    · rw [declared, ← List.append_assoc]
      exact ih hrest a ha
  | group head length body closing rest ihbody ihrest =>
    obtain ⟨-, hexprs, hbody, hrest⟩ := h
    intro a ha
    rw [declared, ← List.append_assoc, ← List.append_assoc]
    rcases List.mem_append.mp ha with ha | ha
    · rcases List.mem_append.mp ha with ha | ha
      · obtain ⟨e, he, rfl⟩ := List.mem_map.mp ha
        apply (hexprs e (Option.mem_toList.mp he)).mono
        rw [List.append_assoc, List.append_assoc]
        exact List.subset_append_left _ _
      · exact (ihbody hbody a ha).mono (List.subset_append_left _ _)
    · exact ihrest hrest a ha

/-- The paths declared in a layout differ from each other and from those declared before it. -/
theorem Scoped.distinct (h : l.Scoped customs n seen) (hseen : (seen.map (·.info.path)).Nodup) :
    ((seen ++ l.declared).map (·.info.path)).Nodup := by
  induction l generalizing n seen with
  | done =>
    rw [declared, List.append_nil]
    exact hseen
  | item head decl rest ih =>
    obtain ⟨hplaced, -, -, hrest⟩ := h
    rw [declared, ← List.append_assoc]
    exact ih hrest (hplaced.distinct hseen _)
  | group head length body closing rest ihbody ihrest =>
    obtain ⟨hplaced, -, hbody, hrest⟩ := h
    rw [declared, ← List.append_assoc, ← List.append_assoc]
    exact ihrest hrest (ihbody hbody (hplaced.distinct hseen _))

end Layout

namespace LayoutBuilder

variable {customs : List CustomType}

theorem distinct_startNames {opened : List OpenStruct} (h : OpenedScoped customs opened) :
    ((startNames opened).map (·.info.path)).Nodup := by
  induction opened with
  | nil => exact List.nodup_nil
  | cons s opened ih =>
    obtain ⟨hbefore, hplaced, -, hopened⟩ := h
    exact hplaced.distinct (hbefore.distinct (ih hopened)) false

theorem ScopedWell.distinct {b : LayoutBuilder} (h : ScopedWell customs b) :
    (b.declared.map (·.info.path)).Nodup := by
  rw [h.declared]
  exact h.body.distinct (distinct_startNames h.opened)

end LayoutBuilder

/-! ## Narrow paths -/

/-- The text has as many bytes as characters. -/
def Narrow (text : String) : Prop := text.utf8ByteSize = text.length

theorem narrow_append {a b : String} (ha : Narrow a) (hb : Narrow b) : Narrow (a ++ b) := by
  rw [Narrow, String.utf8ByteSize_append, String.length_append, ha, hb]

theorem narrow_joinPath {outer name : String} (houter : Narrow outer) (hname : Narrow name) :
    Narrow (joinPath outer name) := by
  unfold joinPath
  split
  · exact hname
  · exact narrow_append (narrow_append houter rfl) hname

/-- The characters of a name take one byte each. -/
theorem utf8Size_of_isNamePart {c : Char} (h : Script.isNamePart c = true) : c.utf8Size = 1 := by
  rw [Char.utf8Size_eq_one_iff]
  simp only [Script.isNamePart, Char.isAlphanum, Char.isAlpha, Char.isUpper, Char.isLower,
    Char.isDigit, Bool.or_eq_true, Bool.and_eq_true, decide_eq_true_eq, beq_iff_eq] at h
  rcases h with ((h | h) | h) | rfl
  · grind
  · grind
  · grind
  · decide

theorem narrow_of_isPlain {name : String} (h : Script.IsPlain name) : Narrow name := by
  rw [Narrow, ← String.ofList_toList (s := name), String.utf8ByteSize_ofList, String.length_ofList]
  unfold Script.IsPlain at h
  generalize name.toList = cs at h
  induction cs with
  | nil => rfl
  | cons c cs ih =>
    obtain ⟨hc, hcs⟩ := List.forall_mem_cons.mp h
    rw [String.utf8Len_cons, ih hcs, utf8Size_of_isNamePart hc, List.length_cons]

namespace LayoutBuilder

variable {options : CompileOptions} {paths : List String} {b b' : LayoutBuilder}

/-- All paths are narrow. -/
structure NarrowPaths (b : LayoutBuilder) : Prop where
  declared : ∀ d ∈ b.declared, Narrow d.info.path
  opened : ∀ s ∈ b.opened, Narrow s.path

theorem narrowPaths_empty : NarrowPaths .empty :=
  ⟨fun _ h => absurd h List.not_mem_nil, fun _ h => absurd h List.not_mem_nil⟩

theorem NarrowPaths.path (h : b.NarrowPaths) : Narrow b.path := by
  unfold LayoutBuilder.path
  cases hopened : b.opened with
  | nil => rfl
  | cons s opened => exact h.opened s (hopened ▸ List.mem_cons_self)

/-- A declaration adds narrow paths only. -/
theorem NarrowPaths.declare (h : b.NarrowPaths) {name : Option String}
    (hname : ∀ n ∈ name, Script.IsPlain n) {numeric : Bool} {info : Option FieldInfo}
    {declared : List Declared} (hdeclare : b.declare name numeric = .ok (info, declared)) :
    (∀ d ∈ declared, Narrow d.info.path) ∧ ∀ i ∈ info, Narrow i.path := by
  unfold LayoutBuilder.declare at hdeclare
  cases name with
  | none =>
    cases hdeclare
    exact ⟨h.declared, fun _ hi => absurd hi (Option.not_mem_none _)⟩
  | some name =>
    have hnarrow := narrow_joinPath h.path (narrow_of_isPlain (hname name rfl))
    dsimp only at hdeclare
    split at hdeclare
    · cases hdeclare
    · cases hdeclare
      refine ⟨fun d hd => ?_, fun i hi => ?_⟩
      · rcases List.mem_append.mp hd with hd | hd
        · exact h.declared d hd
        · rw [List.mem_singleton.mp hd]
          exact hnarrow
      · cases hi
        exact hnarrow

/-- One declaration of a script keeps the paths narrow. -/
theorem NarrowPaths.add (hb : b.NarrowPaths) {position : Position}
    {declaration : Script.Declaration} (hplain : declaration.IsPlain)
    (h : b.add options paths position declaration = .ok b') : b'.NarrowPaths := by
  cases declaration with
  | field decl =>
    obtain ⟨⟨⟩, -, h⟩ := except_bind_eq_ok.mp h
    obtain ⟨⟨item, numeric⟩, -, h⟩ := except_bind_eq_ok.mp h
    obtain ⟨⟨info, declared⟩, hdeclare, h⟩ := except_bind_eq_ok.mp h
    cases h
    exact ⟨(hb.declare hplain hdeclare).1, hb.opened⟩
  | opening name size =>
    obtain ⟨⟨⟩, -, h⟩ := except_bind_eq_ok.mp h
    obtain ⟨length, -, h⟩ := except_bind_eq_ok.mp h
    obtain ⟨⟨info, declared⟩, hdeclare, h⟩ := except_bind_eq_ok.mp h
    cases h
    obtain ⟨hdeclared, hinfo⟩ := hb.declare hplain hdeclare
    refine ⟨hdeclared, List.forall_mem_cons.mpr ⟨?_, hb.opened⟩⟩
    cases info with
    | none => exact hb.path
    | some info => exact hinfo info rfl
  | closing =>
    simp only [LayoutBuilder.add, closing] at h
    cases hopened : b.opened with
    | nil =>
      rw [hopened] at h
      cases h
    | cons s opened =>
      rw [hopened] at h
      cases h
      exact ⟨hb.declared, fun s' hs' => hb.opened s' (hopened ▸ List.mem_cons_of_mem s hs')⟩

/-! ## Between two tokens -/

/-- What holds of the builder between two tokens. -/
structure Sound (b : LayoutBuilder) (options : CompileOptions) : Prop where
  inScope : ScopedWell options.customs b
  narrow : b.NarrowPaths
  order : ∀ s ∈ b.opened, s.head.order = options.order

theorem sound_empty (options : CompileOptions) : Sound .empty options :=
  ⟨scopedWell_empty _, narrowPaths_empty, fun _ h => absurd h List.not_mem_nil⟩

theorem ScopedWell.add (hb : ScopedWell options.customs b) {position : Position}
    {declaration : Script.Declaration} (h : b.add options paths position declaration = .ok b') :
    ScopedWell options.customs b' := by
  cases declaration with
  | field decl => exact scopedWell_field hb h
  | opening name size => exact scopedWell_opening hb h
  | closing => exact scopedWell_closing hb h

theorem order_add (hb : ∀ s ∈ b.opened, s.head.order = options.order) {position : Position}
    {declaration : Script.Declaration} (h : b.add options paths position declaration = .ok b') :
    ∀ s ∈ b'.opened, s.head.order = options.order := by
  cases declaration with
  | field decl =>
    obtain ⟨⟨⟩, -, h⟩ := except_bind_eq_ok.mp h
    obtain ⟨⟨item, numeric⟩, -, h⟩ := except_bind_eq_ok.mp h
    obtain ⟨⟨info, declared⟩, -, h⟩ := except_bind_eq_ok.mp h
    cases h
    exact hb
  | opening name size =>
    obtain ⟨⟨⟩, -, h⟩ := except_bind_eq_ok.mp h
    obtain ⟨length, -, h⟩ := except_bind_eq_ok.mp h
    obtain ⟨⟨info, declared⟩, -, h⟩ := except_bind_eq_ok.mp h
    cases h
    exact List.forall_mem_cons.mpr ⟨rfl, hb⟩
  | closing =>
    simp only [LayoutBuilder.add, closing] at h
    cases hopened : b.opened with
    | nil =>
      rw [hopened] at h
      cases h
    | cons s opened =>
      rw [hopened] at h
      cases h
      exact fun s' hs' => hb s' (hopened ▸ List.mem_cons_of_mem s hs')

theorem Sound.add (hb : b.Sound options) {position : Position}
    {declaration : Script.Declaration} (hplain : declaration.IsPlain)
    (h : b.add options paths position declaration = .ok b') : b'.Sound options :=
  ⟨hb.inScope.add h, hb.narrow.add hplain h, order_add hb.order h⟩

end LayoutBuilder

end RecordLayout
