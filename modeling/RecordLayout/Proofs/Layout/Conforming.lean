import RecordLayout.Proofs.Layout.Declarations
import RecordLayout.Proofs.Layout.Format
import RecordLayout.Proofs.Layout.Sites
import RecordLayout.Proofs.Value.Nested

/-!
# Trees that conform to a layout

What a layout says about the fields of a complete record, without the bits. Every declaration that is
no directive has one node, in order, with the name of the declaration and a value in the form of its
type; a structure has the nodes of its own declarations below it, an array of structures those of each
element. Widths and lengths are those that the expressions give where the declaration stands.

A declaration that no structure array surrounds is met once, so that its path belongs to one node of
the whole tree.
-/

namespace RecordLayout

/-! ## Forms of values -/

/-- The form of value that a fixed type has. -/
def FixedType.HasForm : FixedType → Value → Prop
  | .bool, .bool _ | .byte, .byte _ | .ubyte, .ubyte _ | .short, .short _ | .ushort, .ushort _ => True
  | .int, .int _ | .uint, .uint _ | .long, .long _ | .float, .float _ | .double, .double _ => True
  | _, _ => False

/-- The form of value that a type has, for a known bit width. -/
def ElementType.HasForm (width : Nat) (v : Value) : ElementType → Prop
  | .fixed type => type.HasForm v
  | .bit _ => ∃ x : UInt8, v = .bit x ∧ x.toNat < 2 ^ width
  | .text => ∃ t, v = .text t
  | .custom _ _ => False

/-- The form of an array: it has the length that is wanted, if one is, and it is a byte string if its
elements are bytes. -/
def ElementType.HasArrayForm (width : Nat) (count : Option Nat) (v : Value) (type : ElementType) :
    Prop :=
  (∀ n, count = some n → v.length? = some n) ∧
    if type.isByte then ∃ bs, v = .bytes bs
    else ∃ items, v = .list items ∧ ∀ x ∈ items, type.HasForm width x

namespace ElementType

variable {type : ElementType} {width : Nat} {v : Value}

/-- A value that fits a type has the form that the type says. -/
theorem hasForm_of_fits (h : type.Fits width v) : type.HasForm width v := by
  cases type with
  | fixed type =>
    obtain ⟨hnumber, -⟩ := h
    cases type with
    | bool =>
      simp only [FixedType.ofNumber] at hnumber
      split at hnumber
      · cases hnumber
        trivial
      split at hnumber
      · cases hnumber
        trivial
      · cases hnumber
    | _ =>
      simp only [FixedType.ofNumber, Except.ok.injEq] at hnumber
      rw [← hnumber]
      trivial
  | bit a =>
    obtain ⟨-, hbit⟩ := h
    exact hbit
  | text =>
    obtain ⟨t, rfl, -⟩ := h
    exact ⟨t, rfl⟩
  | custom use extra => exact h.elim

/-- A value with the form of an element holds no nested nodes, and is no structure. -/
theorem HasForm.nested (h : type.HasForm width v) : v.nested = [] ∧ ∀ fields, v ≠ .struct fields := by
  cases type with
  | fixed type => cases type <;> cases v <;> first | exact ⟨rfl, nofun⟩ | exact h.elim
  | bit a =>
    obtain ⟨x, rfl, -⟩ := h
    exact ⟨rfl, nofun⟩
  | text =>
    obtain ⟨t, rfl⟩ := h
    exact ⟨rfl, nofun⟩
  | custom use extra => exact h.elim

/-- A value that fits an array has the form of one, and its length is the one that was evaluated. -/
theorem hasArrayForm_of_fits {order : ByteOrder} {count : Option Nat}
    (hlong : ∀ n, count = some n → v.length? = some n)
    (h : (Slot.mk order type width true).Fits v) : type.HasArrayForm width count v := by
  refine ⟨hlong, ?_⟩
  cases hbyte : type.isByte with
  | true =>
    simp only [Slot.Fits, hbyte] at h
    exact h
  | false =>
    simp only [Slot.Fits, hbyte] at h
    obtain ⟨items, rfl, hall⟩ := h
    exact ⟨items, rfl, fun x hx => hasForm_of_fits (hall x hx)⟩

/-- There is no field in an array of a type. -/
theorem HasArrayForm.nested {count : Option Nat} (h : type.HasArrayForm width count v) :
    v.nested = [] := by
  obtain ⟨-, h⟩ := h
  split at h
  · obtain ⟨bs, rfl⟩ := h
    rfl
  · obtain ⟨items, rfl, hall⟩ := h
    rw [Value.nested]
    induction items with
    | nil => rfl
    | cons item rest ih =>
      have hrest := ih fun x hx => hall x (List.mem_cons_of_mem item hx)
      have hitem := (hall item List.mem_cons_self).nested.2
      cases item with
      | struct fields => exact absurd rfl (hitem fields)
      | _ => exact hrest

end ElementType

/-! ## The relation -/

/-- The value of a declaration at a place, and the place behind it. -/
inductive Decl.Holds (ctx : PassContext) (head : Header) : Decl → Place → Value → Place → Prop
  | single {type : ElementType} {w : Nat} {v : Value} {p : Place}
      (width : type.width (p.env ctx) = .ok w) (form : type.HasForm w v) :
      Decl.Holds ctx head (.value type none) p v
        ((p.advance ((Slot.mk head.order type w false).spell v).length).note head.info v)
  | array {type : ElementType} {length : Length} {w : Nat} {n : Option Nat} {v : Value} {p : Place}
      (width : type.width (p.env ctx) = .ok w) (count : ctx.count (p.env ctx) length = .ok n)
      (form : type.HasArrayForm w n v) :
      Decl.Holds ctx head (.value type (some length)) p v
        (p.advance ((Slot.mk head.order type w true).spell v).length)
  | computed {amount : Amount} {n : Int64} {p : Place}
      (value : amount.value (p.env ctx) = .ok n) :
      Decl.Holds ctx head (.computed amount) p (.long n) (p.note head.info (.long n))

/-- The place behind a directive. -/
inductive Decl.Directs (ctx : PassContext) : Decl → Place → Place → Prop
  | align {a : Amount} {n : Nat} {p : Place} (multiple : a.alignment (p.env ctx) = .ok n) :
      Decl.Directs ctx (.align a) p (p.advance (Bits.toMultiple p.position n))
  | skip {a : Amount} {n : Nat} {p : Place} (count : ctx.skipped (p.env ctx) a = .ok n) :
      Decl.Directs ctx (.skip a) p (p.advance (8 * n))
  | reset {p : Place} : Decl.Directs ctx .reset p { p with position := 0 }

/-- Structures in a row, for what the fields of each may be. -/
inductive Elements.Conform (body : Place → List Field → Place → Prop) :
    Place → List Value → Place → Prop
  | nil {p : Place} : Elements.Conform body p [] p
  | cons {p p₁ p' : Place} {fields : List Field} {values : List Value} (one : body p fields p₁)
      (rest : Elements.Conform body p₁ values p') :
      Elements.Conform body p (.struct fields :: values) p'

/-- The value of a structure or an array of them. -/
inductive Group.Conforms (ctx : PassContext) (body : Place → List Field → Place → Prop) :
    Option Length → Place → Value → Place → Prop
  | struct {p p' : Place} {fields : List Field} (one : body p fields p') :
      Group.Conforms ctx body none p (.struct fields) p'
  | array {length : Length} {n : Option Nat} {p p' : Place} {values : List Value}
      (count : ctx.count (p.env ctx) length = .ok n) (long : ∀ m, n = some m → values.length = m)
      (all : Elements.Conform body p values p') :
      Group.Conforms ctx body (some length) p (.list values) p'

/-- The fields of a part of a layout from a place on, and the place behind them. -/
def Layout.Conforms (ctx : PassContext) : Layout → Place → List Field → Place → Prop
  | done, p, fields, p' => fields = [] ∧ p' = p
  | item head decl rest, p, fields, p' =>
    if decl.kind.isDirective then
      ∃ p₁, decl.Directs ctx p p₁ ∧ rest.Conforms ctx p₁ fields p'
    else
      ∃ v more p₁, fields = .new head.info v :: more ∧ decl.Holds ctx head p v p₁ ∧
        rest.Conforms ctx p₁ more p'
  | group head length body _ rest, p, fields, p' =>
    ∃ v more p₁, fields = .new head.info v :: more ∧
      Group.Conforms ctx (body.Conforms ctx) length p v p₁ ∧ rest.Conforms ctx p₁ more p'

variable {ctx : PassContext} {p p' : Place} {fields : List Field} {pieces : List Piece}

/-! ## Records conform -/

/-- Elements that spell out bits conform one by one. -/
theorem Elements.Spells.conform {body : Place → List Field → List Piece → Option Place → Prop}
    {body' : Place → List Field → Place → Prop}
    (hbody : ∀ p fields pieces p', body p fields pieces (some p') → body' p fields p')
    {values : List Value} {begun : Nat}
    (h : Elements.Spells body p values pieces begun (some p')) :
    Elements.Conform body' p values p' ∧ values.length = begun := by
  generalize hplace : some p' = place at h
  induction h with
  | nil =>
    cases hplace
    exact ⟨.nil, rfl⟩
  | next one rest ih =>
    obtain ⟨hrest, hlength⟩ := ih hplace
    exact ⟨.cons (hbody _ _ _ _ one) hrest, by rw [List.length_cons, hlength]⟩
  | cut | dropped => cases hplace

theorem Group.Spells.conforms {certain : Nat}
    {body : Place → List Field → List Piece → Option Place → Prop}
    {body' : Place → List Field → Place → Prop}
    (hbody : ∀ p fields pieces p', body p fields pieces (some p') → body' p fields p')
    {length : Option Length} {v : Value}
    (h : Group.Spells ctx certain body length p v pieces (some p')) :
    Group.Conforms ctx body' length p v p' := by
  cases h with
  | struct one => exact .struct (hbody _ _ _ _ one)
  | counted count all le eq =>
    obtain ⟨hall, hlength⟩ := all.conform hbody
    refine .array count (fun m hm => ?_) hall
    rw [hlength, eq rfl]
    exact Option.some.inj hm
  | unbounded count all => exact .array count nofun (all.conform hbody).1

/-- A declaration that spells out bits either moves the place without a node, or has the node it
declares. -/
theorem Decl.Spells.holds {head : Header} {decl : Decl} {node : Option Field}
    (h : decl.Spells ctx head p node pieces p') :
    (decl.kind.isDirective = true ∧ node = none ∧ decl.Directs ctx p p') ∨
      ∃ v, decl.kind.isDirective = false ∧ node = some (.new head.info v) ∧
        decl.Holds ctx head p v p' := by
  cases h with
  | @single type w v _ width fits =>
    have hkind : (Decl.value type none).kind.isDirective = false := by cases type <;> rfl
    exact .inr ⟨v, hkind, rfl, .single width (ElementType.hasForm_of_fits fits)⟩
  | @counted type length w n v _ width count long fits =>
    have hkind : (Decl.value type (some length)).kind.isDirective = false := by cases type <;> rfl
    have hlong : ∀ m, some n = some m → v.length? = some m := by
      intro m hm
      rw [long, hm]
    exact .inr ⟨v, hkind, rfl, .array width count (ElementType.hasArrayForm_of_fits hlong fits)⟩
  | @unbounded type length w v _ width count fits =>
    have hkind : (Decl.value type (some length)).kind.isDirective = false := by cases type <;> rfl
    exact .inr ⟨v, hkind, rfl, .array width count (ElementType.hasArrayForm_of_fits nofun fits)⟩
  | @computed amount n _ value => exact .inr ⟨.long n, rfl, rfl, .computed value⟩
  | align multiple long =>
    rw [long]
    exact .inl ⟨rfl, rfl, .align multiple⟩
  | skip count long =>
    rw [long]
    exact .inl ⟨rfl, rfl, .skip count⟩
  | reset long => exact .inl ⟨rfl, rfl, .reset⟩

/-- The fields of a complete record conform to the layout. -/
theorem Layout.Spells.conforms {l : Layout} (h : l.Spells ctx p fields pieces (some p')) :
    l.Conforms ctx p fields p' := by
  induction l generalizing p p' fields pieces with
  | done =>
    obtain ⟨rfl, -, hplace⟩ := h
    exact ⟨rfl, Option.some.inj hplace⟩
  | item head decl rest ih =>
    rcases h with ⟨-, -, -, ⟨⟩⟩ | ⟨node, first, p₁, more, later, hdecl, hrest, rfl, -⟩
    have hconforms := ih hrest
    rw [Layout.Conforms]
    rcases hdecl.holds with ⟨hkind, rfl, hdirects⟩ | ⟨v, hkind, rfl, hholds⟩
    · rw [if_pos hkind]
      exact ⟨p₁, hdirects, hconforms⟩
    · rw [if_neg (by rw [hkind]; exact Bool.false_ne_true)]
      exact ⟨v, more, p₁, rfl, hholds, hconforms⟩
  | group head length body closing rest ihbody ihrest =>
    rcases h with ⟨-, -, -, ⟨⟩⟩ |
      ⟨v, first, ⟨-, -, -, ⟨⟩⟩ | ⟨p₁, more, later, hgroup, hrest, rfl, -⟩⟩
    have hbody : ∀ p fields pieces p', body.Spells ctx p fields pieces (some p') →
        body.Conforms ctx p fields p' := fun _ _ _ _ hone => ihbody hone
    exact ⟨v, more, p₁, rfl, hgroup.conforms hbody, ihrest hrest⟩

/-! ## Whose nodes there are -/

namespace Layout

/-- The names of the nodes of the declarations that stand directly in a layout, in order. -/
def titles : Layout → List (Option FieldInfo)
  | done => []
  | item head decl rest => if decl.kind.isDirective then rest.titles else head.info :: rest.titles
  | group head _ _ _ rest => head.info :: rest.titles

/-- One node for each declaration, in order. -/
theorem Conforms.map_info {l : Layout} (h : l.Conforms ctx p fields p') :
    fields.map Field.info = l.titles := by
  induction l generalizing p p' fields with
  | done =>
    rw [h.1]
    rfl
  | item head decl rest ih =>
    rw [Conforms] at h
    rw [titles]
    split at h
    · rename_i hkind
      obtain ⟨p₁, -, hrest⟩ := h
      rw [if_pos hkind, ih hrest]
    · rename_i hkind
      obtain ⟨v, more, p₁, rfl, -, hrest⟩ := h
      rw [if_neg hkind, List.map_cons, ih hrest]
      rfl
  | group head length body closing rest _ ih =>
    obtain ⟨v, more, p₁, rfl, -, hrest⟩ := h
    rw [titles, List.map_cons, ih hrest]
    rfl

end Layout

theorem Decl.Holds.nested {head : Header} {decl : Decl} {v : Value}
    (h : decl.Holds ctx head p v p') : v.nested = [] := by
  cases h with
  | single width form => exact form.nested.1
  | array width count form => exact form.nested
  | computed value => rfl

/-- What holds of the nodes in each element holds of those in all of them. -/
theorem Elements.Conform.mem_nested {body : Place → List Field → Place → Prop} {values : List Value}
    {holds : Field → Prop}
    (hbody : ∀ p fields p', body p fields p' → ∀ f ∈ Value.nestedFields fields, holds f)
    (h : Elements.Conform body p values p') : ∀ f ∈ Value.nestedItems values, holds f := by
  induction h with
  | nil => exact fun f hf => absurd hf List.not_mem_nil
  | cons one rest ih =>
    intro f hf
    rw [Value.nestedItems, List.mem_append] at hf
    rcases hf with hf | hf
    · exact hbody _ _ _ one f hf
    · exact ih f hf

theorem Group.Conforms.mem_nested {body : Place → List Field → Place → Prop}
    {length : Option Length} {v : Value} {holds : Field → Prop}
    (hbody : ∀ p fields p', body p fields p' → ∀ f ∈ Value.nestedFields fields, holds f)
    (h : Group.Conforms ctx body length p v p') : ∀ f ∈ v.nested, holds f := by
  cases h with
  | struct one => exact hbody _ _ _ one
  | array count long all => exact all.mem_nested hbody

/-- Every name in the tree is declared in the layout. -/
theorem Layout.Conforms.info_mem {l : Layout} (h : l.Conforms ctx p fields p') :
    ∀ f ∈ Value.nestedFields fields, ∀ info, f.info = some info → info ∈ l.infos := by
  induction l generalizing p p' fields with
  | done =>
    rw [h.1]
    exact fun f hf => absurd hf List.not_mem_nil
  | item head decl rest ih =>
    intro f hf info hinfo
    rw [infos, List.mem_append]
    rw [Conforms] at h
    split at h
    · obtain ⟨p₁, -, hrest⟩ := h
      exact .inr (ih hrest f hf info hinfo)
    · obtain ⟨v, more, p₁, rfl, hholds, hrest⟩ := h
      rw [Value.nestedFields_cons, Field.new, hholds.nested, List.nil_append] at hf
      rcases List.mem_cons.mp hf with rfl | hf
      · exact .inl (Option.mem_toList.mpr hinfo)
      · exact .inr (ih hrest f hf info hinfo)
  | group head length body closing rest ihbody ihrest =>
    intro f hf info hinfo
    rw [infos, List.mem_append, List.mem_append]
    obtain ⟨v, more, p₁, rfl, hgroup, hrest⟩ := h
    rw [Value.nestedFields_cons, Field.new] at hf
    rcases List.mem_cons.mp hf with rfl | hf
    · exact .inl (.inl (Option.mem_toList.mpr hinfo))
    rcases List.mem_append.mp hf with hf | hf
    · have hbody := hgroup.mem_nested fun p fields p' hbody => ihbody hbody
      exact .inl (.inr (hbody f hf info hinfo))
    · exact .inr (ihrest hrest f hf info hinfo)

/-- A path that is not declared has no node. -/
theorem Layout.Conforms.filter_eq_nil {l : Layout} (h : l.Conforms ctx p fields p') {path : String}
    (hpath : path ∉ l.infos.map FieldInfo.path) :
    (Value.nestedFields fields).filter (·.path == some path) = [] := by
  rw [List.filter_eq_nil_iff]
  intro f hf heq
  rw [beq_iff_eq, Field.path, Option.map_eq_some_iff] at heq
  obtain ⟨info, hinfo, rfl⟩ := heq
  exact hpath (List.mem_map_of_mem (h.info_mem f hf info hinfo))

/-- A group holds no node of a path that none of its fields has. -/
theorem Group.Conforms.filter_eq_nil {body : Layout} {length : Option Length} {v : Value}
    (h : Group.Conforms ctx (body.Conforms ctx) length p v p') {path : String}
    (hpath : path ∉ body.infos.map FieldInfo.path) :
    v.nested.filter (·.path == some path) = [] := by
  have hnone : ∀ p fields p', body.Conforms ctx p fields p' →
      ∀ f ∈ Value.nestedFields fields, ¬ (f.path == some path) = true := by
    intro p fields p' hbody
    exact List.filter_eq_nil_iff.mp (hbody.filter_eq_nil hpath)
  exact List.filter_eq_nil_iff.mpr (h.mem_nested hnone)

/-! ## Paths outside arrays -/

theorem Layout.mem_infos_of_mem_sites {l : Layout} {arrays : List Nat} {site : Site}
    (hsite : site ∈ l.sites arrays) {info : FieldInfo} (hname : site.name = some info) :
    info ∈ l.infos := by
  induction l generalizing arrays with
  | done => cases hsite
  | item head decl rest ih =>
    rw [infos, List.mem_append]
    rcases List.mem_cons.mp hsite with rfl | hsite
    · exact .inl (Option.mem_toList.mpr hname)
    · exact .inr (ih hsite)
  | group head length body closing rest ihbody ihrest =>
    rw [infos, List.mem_append, List.mem_append]
    rcases List.mem_append.mp hsite with hsite | hsite
    · rcases List.mem_cons.mp hsite with rfl | hsite
      · exact .inl (.inl (Option.mem_toList.mpr hname))
      · exact .inl (.inr (ihbody hsite))
    · exact .inr (ihrest hsite)

/-- The fields have one node with the name of the declaration, and no other node has its path. -/
def OnceAmong (fields : List Field) (info : FieldInfo) : Prop :=
  ∃ node, fields.filter (·.path == some info.path) = [node] ∧ node.info = some info

/-- A node whose path no later one has is the only one of its path. -/
theorem onceAmong_cons {info : FieldInfo} {v : Value} {more : List Field}
    (hmore : more.filter (·.path == some info.path) = []) :
    OnceAmong (.new (some info) v :: more) info := by
  refine ⟨.new (some info) v, ?_, rfl⟩
  rw [List.filter_cons_of_pos (by simp [Field.path, Field.new]), hmore]

/-- A node of another path in front leaves it the only one. -/
theorem OnceAmong.cons {f : Field} {fields : List Field} {info : FieldInfo}
    (h : OnceAmong fields info) (hf : f.path ≠ some info.path) : OnceAmong (f :: fields) info := by
  obtain ⟨node, hnode, hinfo⟩ := h
  refine ⟨node, ?_, hinfo⟩
  rw [List.filter_cons_of_neg (by simpa using hf), hnode]

theorem OnceAmong.append_left {first more : List Field} {info : FieldInfo}
    (h : OnceAmong more info) (hfirst : first.filter (·.path == some info.path) = []) :
    OnceAmong (first ++ more) info := by
  obtain ⟨node, hnode, hinfo⟩ := h
  exact ⟨node, by rw [List.filter_append, hfirst, hnode, List.nil_append], hinfo⟩

theorem OnceAmong.append_right {first more : List Field} {info : FieldInfo}
    (h : OnceAmong first info) (hmore : more.filter (·.path == some info.path) = []) :
    OnceAmong (first ++ more) info := by
  obtain ⟨node, hnode, hinfo⟩ := h
  exact ⟨node, by rw [List.filter_append, hnode, hmore, List.append_nil], hinfo⟩

namespace Layout

/-- Names with different paths, in two parts: no path of one part is in the other one. -/
theorem paths_parts {first later : List FieldInfo}
    (h : ((first ++ later).map FieldInfo.path).Nodup) :
    (first.map FieldInfo.path).Nodup ∧ (later.map FieldInfo.path).Nodup ∧
      (∀ info ∈ first, info.path ∉ later.map FieldInfo.path) ∧
      ∀ info ∈ later, info.path ∉ first.map FieldInfo.path := by
  rw [List.map_append, List.nodup_append] at h
  obtain ⟨hfirst, hlater, hne⟩ := h
  refine ⟨hfirst, hlater, ?_, ?_⟩
  · intro info hinfo hmem
    exact hne _ (List.mem_map_of_mem hinfo) _ hmem rfl
  · intro info hinfo hmem
    exact hne _ hmem _ (List.mem_map_of_mem hinfo) rfl

theorem path_ne_of_head {head : Header} {v : Value} {path : String}
    (h : path ∉ head.info.toList.map FieldInfo.path) : (Field.new head.info v).path ≠ some path := by
  intro hpath
  obtain ⟨info, hinfo, rfl⟩ := Option.map_eq_some_iff.mp hpath
  exact h (List.mem_map_of_mem (Option.mem_toList.mpr hinfo))

/-- A named declaration that no structure array surrounds has one node in the tree. -/
theorem Conforms.once {l : Layout} (h : l.Conforms ctx p fields p')
    (hpaths : (l.infos.map FieldInfo.path).Nodup) (huntitled : l.EachItem Decl.Untitled)
    {site : Site} (hsite : site ∈ l.sites []) (harrays : site.arrays = []) {info : FieldInfo}
    (hname : site.name = some info) : OnceAmong (Value.nestedFields fields) info := by
  induction l generalizing p p' fields with
  | done => cases hsite
  | item head decl rest ih =>
    obtain ⟨-, hrest_paths, hhead, hlater⟩ := paths_parts hpaths
    rw [Conforms] at h
    split at h
    · rename_i hkind
      obtain ⟨p₁, -, hrest⟩ := h
      rcases List.mem_cons.mp hsite with rfl | hsite
      · -- a directive has no name
        rw [huntitled.1 hkind] at hname
        cases hname
      · exact ih hrest hrest_paths huntitled.2 hsite
    · obtain ⟨v, more, p₁, rfl, hholds, hrest⟩ := h
      rw [Value.nestedFields_cons, Field.new, hholds.nested, List.nil_append]
      rcases List.mem_cons.mp hsite with rfl | hsite
      · have hname : head.info = some info := hname
        rw [hname]
        apply onceAmong_cons
        exact hrest.filter_eq_nil (hhead info (Option.mem_toList.mpr hname))
      · have honce := ih hrest hrest_paths huntitled.2 hsite
        exact honce.cons (path_ne_of_head (hlater info (mem_infos_of_mem_sites hsite hname)))
  | group head length body closing rest ihbody ihrest =>
    obtain ⟨v, more, p₁, rfl, hgroup, hrest⟩ := h
    obtain ⟨hfront_paths, hrest_paths, hfront, hlater⟩ := paths_parts hpaths
    obtain ⟨-, hbody_paths, hhead, hbody⟩ := paths_parts hfront_paths
    rw [Value.nestedFields_cons]
    rcases List.mem_append.mp hsite with hsite | hsite
    · rcases List.mem_cons.mp hsite with rfl | hsite
      · have hname : head.info = some info := hname
        have hmem : info ∈ head.info.toList := Option.mem_toList.mpr hname
        have hbelow := hgroup.filter_eq_nil (hhead info hmem)
        have hbehind := hrest.filter_eq_nil (hfront info (List.mem_append_left _ hmem))
        rw [hname]
        apply onceAmong_cons
        rw [List.filter_append]
        exact List.append_eq_nil_iff.mpr ⟨hbelow, hbehind⟩
      · have hmem := mem_infos_of_mem_sites hsite hname
        cases hgroup with
        | struct one =>
          have honce := ihbody one hbody_paths huntitled.1 hsite
          have hbehind := hrest.filter_eq_nil (hfront info (List.mem_append_right _ hmem))
          exact (honce.append_right hbehind).cons (path_ne_of_head (hbody info hmem))
        | array count long all =>
          -- the array surrounds the declaration
          have harray := mem_arrays_of_mem_body (by rfl) site hsite
          rw [harrays] at harray
          cases harray
    · have hother := hlater info (mem_infos_of_mem_sites hsite hname)
      rw [List.map_append, List.mem_append, not_or] at hother
      have honce := ihrest hrest hrest_paths huntitled.2 hsite
      have hbelow := hgroup.filter_eq_nil hother.2
      exact (honce.append_left hbelow).cons (path_ne_of_head hother.1)

end Layout

end RecordLayout
