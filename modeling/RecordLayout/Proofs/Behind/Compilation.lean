import RecordLayout.Proofs.Behind.Lookup
import RecordLayout.Proofs.Names.Soundness

/-!
# Scripts behind one another

A builder that stands behind another one has its indexes, its declarations and its layout behind
those of the other. As long as the tokens mention nothing of what was declared in front, and declare
nothing that was, the builder takes the same steps there. So two scripts that have nothing to do
with each other, with a reset between them, make a layout of the layout of the first, the reset, and
the layout of the second further back.
-/

namespace RecordLayout

open Script (Token Declaration declaredFrom declaredPaths referencesFrom references)

/-- A structure that is open, further back, with what stands in front of its surroundings. -/
def OpenStruct.behind (k : Nat) (front : Layout) (s : OpenStruct) : OpenStruct :=
  { s with
    head := s.head.shift k, length := s.length.map (Length.shift k),
    before := front ++ s.before.shift k }

namespace LayoutBuilder

/-- What stands in front of the innermost open structure's declarations: all that is in front, if no
structure is open. -/
def frontOf (front : Layout) : List OpenStruct → Layout
  | [] => front
  | _ :: _ => .done

/-- The open structures further back. -/
def openedBehind (k : Nat) (front : Layout) : List OpenStruct → List OpenStruct
  | [] => []
  | s :: opened => s.behind k (frontOf front opened) :: openedBehind k front opened

/-- The builder behind one in which no structure is open. -/
def behind (front b : LayoutBuilder) : LayoutBuilder where
  next := front.next + b.next
  declared := front.declared ++ b.declared.map (Declared.shift front.next)
  opened := openedBehind front.next front.body b.opened
  body := frontOf front.body b.opened ++ b.body.shift front.next
  ended := b.ended

variable {options : CompileOptions} {paths paths' : List String} {front b b' : LayoutBuilder}

/-- An empty builder behind a closed one leaves it as it is. -/
theorem behind_empty (front : LayoutBuilder) (hopened : front.opened = [])
    (hended : front.ended = none) : front.behind .empty = front := by
  rcases front with ⟨next, declared, opened, body, ended⟩
  subst hopened hended
  simp [behind, empty, openedBehind, frontOf, Layout.shift]

/-- Nothing is in front of a builder behind an empty one. -/
theorem empty_behind (b : LayoutBuilder) : empty.behind b = b := by
  have hfront : ∀ opened : List OpenStruct, frontOf .done opened = .done := by
    intro opened
    cases opened <;> rfl
  have hopened : ∀ opened : List OpenStruct, openedBehind 0 .done opened = opened := by
    intro opened
    induction opened with
    | nil => rfl
    | cons s opened ih =>
      rw [openedBehind, ih, hfront, OpenStruct.behind, Header.shift_zero, Layout.shift_zero,
        Layout.done_append]
      cases hlength : s.length with
      | none => rw [Option.map_none, ← hlength]
      | some length => rw [Option.map_some, Length.shift_zero, ← hlength]
  have hdeclared : ∀ ds : List Declared, ds.map (Declared.shift 0) = ds := by
    intro ds
    rw [List.map_congr_left fun d _ => Declared.shift_zero d, List.map_id']
  simp only [behind, empty, hfront, hopened, hdeclared, Nat.zero_add, List.nil_append,
    Layout.done_append, Layout.shift_zero]

/-- The paths of open structures do not say where in the layout they begin. -/
theorem paths_openedBehind (k : Nat) (front : Layout) (opened : List OpenStruct) :
    (openedBehind k front opened).map OpenStruct.path = opened.map OpenStruct.path := by
  induction opened with
  | nil => rfl
  | cons s opened ih => rw [openedBehind, List.map_cons, List.map_cons, ih]; rfl

theorem path_behind (front b : LayoutBuilder) : (front.behind b).path = b.path := by
  rw [path_eq, path_eq]
  exact congrArg (·.head?.getD "") (paths_openedBehind _ _ _)

theorem repeated_behind (front b : LayoutBuilder) : (front.behind b).repeated = b.repeated := by
  simp only [repeated, behind]
  cases b.opened <;> rfl

/-- The scope of the builder is behind the declarations in front. -/
theorem scope_behind (front b : LayoutBuilder) :
    (b.scope options paths).Behind front.next front.declared
      ((front.behind b).scope options paths') :=
  ⟨rfl, paths_openedBehind _ _ _, rfl⟩

/-! ## One token -/

/-- A name that is not declared in front is declared with an index further back. -/
theorem declare_behind {name : Option String} {numeric : Bool} {info : Option FieldInfo}
    {declared : List Declared} (h : b.declare name numeric = .ok (info, declared))
    (hapart : ∀ d ∈ declared, ∀ e ∈ front.declared, e.info.path ≠ d.info.path) :
    (front.behind b).declare name numeric = .ok (info.map (FieldInfo.shift front.next),
      front.declared ++ declared.map (Declared.shift front.next)) := by
  unfold declare at h ⊢
  cases name with
  | none =>
    cases h
    rfl
  | some name =>
    dsimp only at h ⊢
    rw [path_behind]
    split at h
    · cases h
    · rename_i hfresh
      cases h
      have hfront : ¬ front.declared.any (·.info.path == joinPath b.path name) = true := by
        rw [List.any_eq_true]
        rintro ⟨e, he, hpath⟩
        exact hapart ⟨⟨joinPath b.path name, name, b.next⟩, numeric⟩ (by simp) e he
          (beq_iff_eq.mp hpath)
      have hbehind :
          ¬ (front.behind b).declared.any (·.info.path == joinPath b.path name) = true := by
        have hsame : (b.declared.map (Declared.shift front.next)).any
            (·.info.path == joinPath b.path name) =
              b.declared.any (·.info.path == joinPath b.path name) := List.any_map
        rw [behind, List.any_append, Bool.or_eq_true, hsame]
        exact not_or.mpr ⟨hfront, hfresh⟩
      rw [if_neg hbehind, List.map_append, ← List.append_assoc]
      rfl

section

variable {position : Position}
  (hapart : ∀ d ∈ b'.declared, ∀ e ∈ front.declared, e.info.path ≠ d.info.path)
include hapart

/-- A field behind another layout is compiled to the same declaration with its fields further back.
-/
theorem field_behind {decl : Script.FieldDecl} (h : b.field options paths position decl = .ok b')
    (hreaches : Reaches front.next (b.scope options paths)
      ((front.behind b).scope options paths') (Declaration.field decl).texts) :
    (front.behind b).field options paths' position decl = .ok (front.behind b') := by
  obtain ⟨⟨⟩, hcheck, h⟩ := except_bind_eq_ok.mp h
  obtain ⟨⟨item, numeric⟩, hitem, h⟩ := except_bind_eq_ok.mp h
  obtain ⟨⟨info, declared⟩, hdeclare, h⟩ := except_bind_eq_ok.mp h
  cases h
  refine except_bind_eq_ok.mpr ⟨(), hcheck, except_bind_eq_ok.mpr
    ⟨(item.shift front.next, numeric), ?_, except_bind_eq_ok.mpr
      ⟨_, declare_behind hdeclare hapart, ?_⟩⟩⟩
  · rw [repeated_behind]
    exact fieldDecl_transfers options b.repeated hreaches _ hitem
  · simp only [behind, Layout.shift_append, Layout.append_assoc, Decl.length_shift,
      Length.shift_unbounded]
    rfl

/-- A structure behind another layout opens as it does alone. -/
theorem opening_behind {name : Option String} {size : Option Script.Size}
    (h : b.opening options paths position name size = .ok b')
    (hreaches : Reaches front.next (b.scope options paths)
      ((front.behind b).scope options paths') (Declaration.opening name size).texts) :
    (front.behind b).opening options paths' position name size = .ok (front.behind b') := by
  obtain ⟨⟨⟩, hcheck, h⟩ := except_bind_eq_ok.mp h
  obtain ⟨length, hlength, h⟩ := except_bind_eq_ok.mp h
  obtain ⟨⟨info, declared⟩, hdeclare, h⟩ := except_bind_eq_ok.mp h
  cases h
  refine except_bind_eq_ok.mpr ⟨(), hcheck, except_bind_eq_ok.mpr
    ⟨length.map (Length.shift front.next), ?_, except_bind_eq_ok.mpr
      ⟨_, declare_behind hdeclare hapart, ?_⟩⟩⟩
  · rw [repeated_behind]
    exact arrayLength_transfers b.repeated hreaches _ hlength
  · rw [path_behind, repeated_behind, Option.isSome_map]
    cases info <;> rfl

end

/-- A structure is put behind what stands in front of it, be that in front of all or not. -/
theorem closing_behind {position : Position} (h : b.closing position = .ok b') :
    (front.behind b).closing position = .ok (front.behind b') := by
  unfold closing at h ⊢
  cases hopened : b.opened with
  | nil =>
    rw [hopened] at h
    cases h
  | cons s opened =>
    rw [hopened] at h
    cases h
    simp only [behind, hopened, openedBehind, OpenStruct.behind, frontOf, Layout.done_append,
      Layout.shift_append, Layout.append_assoc, Length.shift_unbounded]
    rfl

/-- What a token adds behind is what it adds alone. -/
theorem add_behind {position : Position} {d : Declaration}
    (h : b.add options paths position d = .ok b')
    (hnames : ∀ m ∈ d.texts.flatMap Script.mentions, m.marked = false →
      Scope.Foreign front.declared (b.scope options paths)
        ((front.behind b).scope options paths') m.name)
    (hapart : ∀ d ∈ b'.declared, ∀ e ∈ front.declared, e.info.path ≠ d.info.path) :
    (front.behind b).add options paths' position d = .ok (front.behind b') := by
  have hreaches := (scope_behind front b).transfer hnames
  cases d with
  | field decl => exact field_behind hapart h hreaches
  | opening name size => exact opening_behind hapart h hreaches
  | closing => exact closing_behind h

/-! ## A whole script -/

/-- The induction is on the tokens; what is declared in the end tells what each of them declares. -/
theorem tokens_behind (front : LayoutBuilder) (paths' : List String) {tokens : List Token}
    (h : tokens.foldlM (token options paths) b = .ok b')
    (hfront : ∀ t ∈ tokens, ∀ m ∈ t.declaration.texts.flatMap Script.mentions, m.marked = false →
      ∀ d ∈ front.declared, pathMatches d.info.path m.name = false)
    (hpaths : ∀ t ∈ tokens, ∀ m ∈ t.declaration.texts.flatMap Script.mentions, m.marked = false →
      ∀ path ∈ paths', pathMatches path m.name = true → path ∈ paths)
    (hapart : ∀ d ∈ b'.declared, ∀ e ∈ front.declared, e.info.path ≠ d.info.path) :
    tokens.foldlM (token options paths') (front.behind b) = .ok (front.behind b') := by
  induction tokens generalizing b with
  | nil =>
    cases h
    rfl
  | cons t tokens ih =>
    rw [List.foldlM_cons] at h ⊢
    obtain ⟨b₁, ht, h⟩ := except_bind_eq_ok.mp h
    rw [List.forall_mem_cons] at hfront hpaths
    obtain ⟨later, hlater, -⟩ := tokens_declared h
    refine except_bind_eq_ok.mpr ⟨front.behind b₁, ?_, ih h hfront.2 hpaths.2⟩
    refine token_eq_ok.mpr (add_behind (token_eq_ok.mp ht)
      (fun m hm hmarked => ⟨hfront.1 m hm hmarked, hpaths.1 m hm hmarked⟩) fun d hd => hapart d ?_)
    rw [hlater]
    exact List.mem_append_left _ hd

end LayoutBuilder

namespace Script

/-- The names in the texts of tokens are those of their references. -/
theorem exists_reference (n : Nat) (outer : List (Option String)) {tokens : List Token} {t : Token}
    (ht : t ∈ tokens) {m : Mention} (hm : m ∈ t.declaration.texts.flatMap mentions) :
    ∃ r ∈ referencesFrom n outer tokens, r.mention = m := by
  induction tokens generalizing n outer with
  | nil => cases ht
  | cons u tokens ih =>
    rw [referencesFrom]
    rcases List.mem_cons.mp ht with rfl | ht
    · exact ⟨_, List.mem_append_left _ (List.mem_map.mpr ⟨m, hm, rfl⟩), rfl⟩
    · obtain ⟨r, hr, hmention⟩ := ih _ _ ht
      exact ⟨r, List.mem_append_right _ hr, hmention⟩

/-- What tokens declare behind others is declared inside the structures that these leave open. -/
theorem declaredFrom_append {options : CompileOptions} {paths : List String} {b b' : LayoutBuilder}
    {outer : List (Option String)} (hinside : b.Inside outer) {tokens : List Token}
    (h : tokens.foldlM (LayoutBuilder.token options paths) b = .ok b') (more : List Token) :
    declaredFrom (b.opened.map OpenStruct.path) (tokens ++ more) =
      declaredFrom (b.opened.map OpenStruct.path) tokens ++
        declaredFrom (b'.opened.map OpenStruct.path) more := by
  induction tokens generalizing b outer with
  | nil =>
    cases h
    rfl
  | cons t tokens ih =>
    rw [List.foldlM_cons] at h
    obtain ⟨b₁, ht, h⟩ := except_bind_eq_ok.mp h
    have hinside₁ := (LayoutBuilder.token_adds ht).inside outer hinside
    have hrest := ih hinside₁ h
    rw [hinside₁] at hrest
    rw [hinside, List.cons_append, declaredFrom, declaredFrom, head?_inheritedPaths]
    cases hdeclaration : t.declaration with
    | field decl =>
      rw [hdeclaration] at hrest
      exact (congrArg (_ ++ ·) hrest).trans (List.append_assoc _ _ _).symm
    | opening name size =>
      rw [hdeclaration] at hrest
      cases name with
      | none => exact hrest
      | some name => exact congrArg (_ :: ·) hrest
    | closing =>
      rw [hdeclaration] at hrest
      cases outer with
      | nil => exact hrest
      | cons s outer => exact hrest

/-- The token is a reset. -/
def Token.Resets (order : Option ByteOrder) (t : Token) : Prop :=
  t.declaration = .field ⟨order, BuiltIn.reset.name, none, none, none⟩

/-- A reset declares nothing. -/
theorem declaredPaths_around_reset {options : CompileOptions} {paths : List String}
    {tokens : List Token} {b : LayoutBuilder}
    (h : tokens.foldlM (LayoutBuilder.token options paths) .empty = .ok b) (hopened : b.opened = [])
    {order : Option ByteOrder} {t : Token} (ht : t.Resets order) (more : List Token) :
    declaredPaths (tokens ++ t :: more) = declaredPaths tokens ++ declaredPaths more := by
  have happend := declaredFrom_append LayoutBuilder.inside_empty h (t :: more)
  rw [hopened, List.map_nil, declaredFrom, show t.declaration = _ from ht] at happend
  exact happend

/-- No name in the expressions of some tokens may stand for what others declare. -/
def Ignores (tokens others : List Token) : Prop :=
  ∀ r ∈ references tokens, r.mention.marked = false →
    ∀ path ∈ declaredPaths others, pathMatches path r.mention.name = false

/-- Two scripts that have nothing to do with each other. -/
structure Apart (ts us : List Token) : Prop where
  paths : ∀ path ∈ declaredPaths ts, path ∉ declaredPaths us
  front : Ignores ts us
  back : Ignores us ts

/-- A name that one script mentions is none that the other declares. -/
theorem Ignores.pathMatches {tokens others : List Token} (h : Ignores tokens others) {t : Token}
    (ht : t ∈ tokens) {m : Mention} (hm : m ∈ t.declaration.texts.flatMap mentions)
    (hmarked : m.marked = false) {path : String} (hpath : path ∈ declaredPaths others) :
    pathMatches path m.name = false := by
  obtain ⟨r, hr, rfl⟩ := exists_reference 0 [] ht hm
  exact h r hr hmarked path hpath

end Script

namespace LayoutBuilder

variable {options : CompileOptions} {paths : List String} {b b' : LayoutBuilder}

/-- Only a layout with an unbounded array is complete. -/
def EndedWell (b : LayoutBuilder) : Prop := b.ended.isSome = true → b.body.endless = true

/-- A token that is compiled leaves a builder whose end is still where it should be. -/
theorem endedWell_token {t : Token} (hb : b.EndedWell) (h : b.token options paths t = .ok b') :
    b'.EndedWell := by
  have hadd := token_eq_ok.mp h
  cases hdeclaration : t.declaration with
  | field decl =>
    rw [hdeclaration] at hadd
    obtain ⟨-, -, hadd⟩ := except_bind_eq_ok.mp hadd
    obtain ⟨⟨item, numeric⟩, -, hadd⟩ := except_bind_eq_ok.mp hadd
    obtain ⟨⟨info, declared⟩, -, hadd⟩ := except_bind_eq_ok.mp hadd
    cases hadd
    intro hended
    by_cases hlength : item.length = some .unbounded
    · simp [Layout.endless_append, Layout.endless, hlength]
    · simp [hlength] at hended
  | opening name size =>
    rw [hdeclaration] at hadd
    obtain ⟨-, -, hadd⟩ := except_bind_eq_ok.mp hadd
    obtain ⟨length, -, hadd⟩ := except_bind_eq_ok.mp hadd
    obtain ⟨⟨info, declared⟩, -, hadd⟩ := except_bind_eq_ok.mp hadd
    cases hadd
    intro hended
    cases hended
  | closing =>
    rw [hdeclaration] at hadd
    simp only [add, closing] at hadd
    split at hadd
    · cases hadd
    · rename_i s opened hopened
      cases hadd
      intro hended
      by_cases hlength : s.length = some .unbounded
      · simp [Layout.endless_append, Layout.endless, hlength]
      · have hbody : b.body.endless = true := hb (by simpa [hlength] using hended)
        simp [Layout.endless_append, Layout.endless, hbody]

/-- What a whole script is built to. -/
structure Builds (options : CompileOptions) (tokens : List Token) (l : Layout) (b : LayoutBuilder) :
    Prop where
  run : tokens.foldlM (token options (declaredPaths tokens)) empty = .ok b
  body : b.body = l
  next : b.next = l.size
  opened : b.opened = []
  paths : b.declared.map (·.info.path) = declaredPaths tokens
  ended : l.endless = false → b.ended = none

theorem exists_builds {tokens : List Token} {l : Layout}
    (h : Layout.ofTokens options tokens = .ok l) : ∃ b, Builds options tokens l b := by
  obtain ⟨b, hb, hfinish⟩ := except_bind_eq_ok.mp h
  obtain ⟨hopened, rfl⟩ := finish_eq_ok hfinish
  have hwell := scopedWell_tokens (scopedWell_empty _) hb
  have hended : b.EndedWell :=
    kept_by_tokens (fun _ _ _ => endedWell_token) (fun h => by cases h) hb
  refine ⟨b, hb, rfl, ?_, hopened, tokens_paths inside_empty hb, fun hbounded => ?_⟩
  · rw [hwell.next, hopened]
    exact Nat.zero_add _
  · cases hsome : b.ended with
    | none => rfl
    | some array =>
      rw [hended (by rw [hsome]; rfl)] at hbounded
      cases hbounded

/-- The builder behind a reset. -/
def afterReset (b : LayoutBuilder) (order : ByteOrder) (position : Position) : LayoutBuilder :=
  { b with
    next := b.next + 1, body := b.body ++ .item ⟨b.next, none, order, position⟩ .reset .done }

/-- A reset takes an index and nothing else. -/
theorem token_reset {order : Option ByteOrder} {t : Token} (ht : t.Resets order)
    (hended : b.ended = none) :
    b.token options paths t = .ok (b.afterReset (order.getD options.order) t.position) := by
  rw [token_eq_ok, show t.declaration = _ from ht]
  have hcheck : b.checkEnded = .ok () := by rw [checkEnded, hended]
  simp only [add, field, hcheck, afterReset]
  rw [hended]
  rfl

/-- The builder comes to the same for tokens that mention nothing of what comes behind them. -/
theorem tokens_in_front {ts us : List Token} {l : Layout} (hb : Builds options ts l b)
    (hignores : Script.Ignores ts us)
    (hpaths : ∀ path ∈ paths, path ∈ declaredPaths ts ∨ path ∈ declaredPaths us) :
    ts.foldlM (token options paths) empty = .ok b := by
  have hbehind := tokens_behind empty paths hb.run
    (fun _ _ _ _ _ d hd => absurd hd List.not_mem_nil)
    (fun t ht m hm hmarked path hpath hmatches => ?_)
    (fun _ _ e he => absurd he List.not_mem_nil)
  · rwa [empty_behind, empty_behind] at hbehind
  · refine (hpaths path hpath).resolve_right fun hother => ?_
    rw [hignores.pathMatches ht hm hmarked hother] at hmatches
    cases hmatches

/-- The builder comes to the same, further back, for tokens that mention nothing of what is in front
of them and declare nothing of it. -/
theorem tokens_in_back {ts us : List Token} {l : Layout} (hb : Builds options us l b)
    {front : LayoutBuilder} (hopened : front.opened = []) (hended : front.ended = none)
    (hdeclared : front.declared.map (·.info.path) = declaredPaths ts) (hapart : Script.Apart ts us)
    (hpaths : ∀ path ∈ paths, path ∈ declaredPaths ts ∨ path ∈ declaredPaths us) :
    us.foldlM (token options paths) front = .ok (front.behind b) := by
  have hmem : ∀ d ∈ front.declared, d.info.path ∈ declaredPaths ts := by
    rw [← hdeclared]
    exact fun d hd => List.mem_map_of_mem hd
  have hbehind := tokens_behind front paths hb.run
    (fun t ht m hm hmarked d hd => hapart.back.pathMatches ht hm hmarked (hmem d hd))
    (fun t ht m hm hmarked path hpath hmatches => ?_) (fun d hd e he hpath => ?_)
  · rwa [behind_empty front hopened hended] at hbehind
  · refine (hpaths path hpath).resolve_left fun hother => ?_
    rw [hapart.back.pathMatches ht hm hmarked hother] at hmatches
    cases hmatches
  · refine hapart.paths e.info.path (hmem e he) ?_
    rw [hpath, ← hb.paths]
    exact List.mem_map_of_mem hd

end LayoutBuilder

/-- Two scripts that have nothing to do with each other, with a reset between them, make the layout
of the first, the reset, and the layout of the second further back. -/
theorem Layout.ofTokens_around_reset {options : CompileOptions} {ts us : List Token} {k l : Layout}
    (hk : Layout.ofTokens options ts = .ok k) (hl : Layout.ofTokens options us = .ok l)
    (hbounded : k.endless = false) (hapart : Script.Apart ts us) {order : Option ByteOrder}
    {t : Token} (ht : t.Resets order) :
    Layout.ofTokens options (ts ++ t :: us) =
      .ok (k ++ .item ⟨k.size, none, order.getD options.order, t.position⟩ .reset
        (l.shift (k.size + 1))) := by
  obtain ⟨a, ha⟩ := LayoutBuilder.exists_builds hk
  obtain ⟨b, hb⟩ := LayoutBuilder.exists_builds hl
  have hended := ha.ended hbounded
  have hpaths : ∀ path ∈ declaredPaths (ts ++ t :: us),
      path ∈ declaredPaths ts ∨ path ∈ declaredPaths us := by
    rw [Script.declaredPaths_around_reset ha.run ha.opened ht us]
    exact fun path hpath => List.mem_append.mp hpath
  have hrun : (ts ++ t :: us).foldlM
      (LayoutBuilder.token options (declaredPaths (ts ++ t :: us))) .empty =
        .ok ((a.afterReset (order.getD options.order) t.position).behind b) := by
    rw [List.foldlM_append]
    refine except_bind_eq_ok.mpr ⟨a, LayoutBuilder.tokens_in_front ha hapart.front hpaths, ?_⟩
    rw [List.foldlM_cons]
    refine except_bind_eq_ok.mpr ⟨_, LayoutBuilder.token_reset ht hended, ?_⟩
    exact LayoutBuilder.tokens_in_back hb ha.opened hended ha.paths hapart hpaths
  refine except_bind_eq_ok.mpr ⟨_, hrun, ?_⟩
  simp only [LayoutBuilder.finish, LayoutBuilder.behind, LayoutBuilder.afterReset, hb.opened,
    LayoutBuilder.openedBehind, LayoutBuilder.frontOf, ha.body, hb.body, ha.next,
    Layout.append_assoc, Layout.item_append, Layout.done_append]

end RecordLayout
