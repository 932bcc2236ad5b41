import RecordLayout.Proofs.Layout.Sites
import RecordLayout.Proofs.Watched.Basic

/-!
# What expressions see

An expression that refers to a field sees the latest node of its declaration in the past of the pass,
and it sees nothing exactly if there is no such node. Where every structure array around the field is
also around the declaration that the expression belongs to, there is such a node, and it belongs to
the element of each of these arrays that the pass is in.

The proofs carry three facts along a pass: what the pass remembers of a numeric declaration is its
latest node; the elements that surround the site which the pass has reached have begun; and every
numeric declaration in front of that site that no further array surrounds has a node in each of
them. They are kept by every operation, which `Runs` says.
-/

namespace RecordLayout

/-- The latest node of a declaration. -/
def latestNode (index : Nat) (past : List Event) : Option Value :=
  past.findSome? fun
    | .node i v => if i = index then some v else none
    | _ => none

/-- The event is the begin of an element of the array. -/
def Event.begins (array : Nat) : Event → Bool
  | .element a => a == array
  | _ => false

/-- What has happened since the latest element of an array began. -/
def sinceElement (array : Nat) (past : List Event) : List Event :=
  past.takeWhile fun event => !event.begins array

/-- An expression of a declaration, evaluated in an environment behind a past, sees the latest nodes
of the fields it refers to. -/
def Layout.Sees (l : Layout) (index : Nat) (e : Expr) (env : Expr.Env) (past : List Event) : Prop :=
  ∀ info ∈ e.fields,
    (match latestNode info.index past with
      | some v => ∃ n, v.asInt = some n ∧ Expr.evalIn env e (.field info) = .ok n
      | none => Expr.evalIn env e (.field info) = .error (.noValueYet info.path)) ∧
    (l.arraysAround info.index ⊆ l.arraysAround index →
      ∃ v, latestNode info.index past = some v ∧
        ∀ array ∈ l.arraysAround info.index, .element array ∈ past ∧
          latestNode info.index (sinceElement array past) = some v)

/-- Every expression that was evaluated saw the latest nodes then. -/
def Layout.Faithful (l : Layout) : (past : List Event) → Prop
  | [] => True
  | .evaluated index e env :: past => l.Sees index e env past ∧ l.Faithful past
  | _ :: past => l.Faithful past

/-- What was evaluated at some time saw the latest nodes at that time. -/
theorem Layout.Faithful.sees {l : Layout} {past earlier : List Event} {index : Nat} {e : Expr}
    {env : Expr.Env} (h : l.Faithful past) (hsuffix : .evaluated index e env :: earlier <:+ past) :
    l.Sees index e env earlier := by
  induction past with
  | nil => cases List.suffix_nil.mp hsuffix
  | cons event past ih =>
    rcases List.suffix_cons_iff.mp hsuffix with heq | htail
    · cases heq
      exact h.1
    · cases event with
      | element a => exact ih h htail
      | node i v => exact ih h htail
      | evaluated i e' env' => exact ih h.2 htail

/-! ## The past step by step -/

section

variable {index array : Nat} {past : List Event}

theorem latestNode_node (v : Value) : latestNode index (.node index v :: past) = some v := by
  simp [latestNode]

theorem latestNode_node_of_ne {i : Nat} (h : i ≠ index) (v : Value) :
    latestNode index (.node i v :: past) = latestNode index past := by
  simp [latestNode, h]

theorem latestNode_element (a : Nat) :
    latestNode index (.element a :: past) = latestNode index past := rfl

theorem latestNode_evaluated (i : Nat) (e : Expr) (env : Expr.Env) :
    latestNode index (.evaluated i e env :: past) = latestNode index past := rfl

/-- What begins no element of an array leaves the time since its last one. -/
theorem sinceElement_cons {event : Event} (h : event.begins array = false) :
    sinceElement array (event :: past) = event :: sinceElement array past := by
  rw [sinceElement, List.takeWhile_cons_of_pos (by rw [h]; rfl)]
  rfl

end

namespace Layout

/-- What a pass remembers of the numeric declarations is their latest nodes. -/
def Remembers (l : Layout) (numbers : Numbers) (past : List Event) : Prop :=
  ∀ p ∈ l.sites [], p.numeric → p.name.isSome →
    (numbers.get? p.index).map some = (latestNode p.index past).map Value.asInt

/-- What holds behind the sites `before`, inside an element of each of the arrays. -/
structure Ready (l : Layout) (before : List Site) (arrays : List Nat) (numbers : Numbers)
    (past : List Event) : Prop where
  faithful : l.Faithful past
  remembers : l.Remembers numbers past
  begun : ∀ a ∈ arrays, .element a ∈ past
  fresh : ∀ p ∈ before, p.numeric → p.arrays ⊆ arrays →
    ∃ v, latestNode p.index past = some v ∧
      ∀ a ∈ p.arrays, latestNode p.index (sinceElement a past) = some v

/-- The sites `before` stand in front of the site `p`. -/
def Stands (l : Layout) (before : List Site) (p : Site) : Prop :=
  ∃ after, l.sites [] = before ++ p :: after

variable {l : Layout} {before : List Site} {arrays : List Nat} {numbers numbers' : Numbers}
  {past : List Event} {p : Site}

theorem Stands.mem (h : l.Stands before p) : p ∈ l.sites [] := by
  obtain ⟨after, hafter⟩ := h
  rw [hafter]
  simp

theorem Stands.mem_of_before (h : l.Stands before p) {q : Site} (hq : q ∈ before) :
    q ∈ l.sites [] := by
  obtain ⟨after, hafter⟩ := h
  rw [hafter]
  exact List.mem_append_left _ hq

theorem Stands.lt (hplaced : Placed 0 l.size (l.sites [])) (h : l.Stands before p) {q : Site}
    (hq : q ∈ before) : q.index < p.index := by
  obtain ⟨after, hafter⟩ := h
  have hsorted := hplaced.sorted
  rw [hafter] at hsorted
  exact (List.pairwise_append.mp hsorted).2.2 q hq p List.mem_cons_self

/-- No array stands around a declaration in front of it. -/
theorem Stands.not_mem_arrays (hplaced : Placed 0 l.size (l.sites [])) (h : l.Stands before p)
    {q : Site} (hq : q ∈ before) : p.index ∉ q.arrays := by
  intro hmem
  have hlt := h.lt hplaced hq
  have hbelow := hplaced.outside q (h.mem_of_before hq) _ hmem
  omega

/-- What holds behind more sites, within more arrays, holds behind fewer. -/
theorem Ready.mono {before' : List Site} {arrays' : List Nat}
    (h : l.Ready before' arrays' numbers past) (hbefore : before ⊆ before')
    (harrays : arrays ⊆ arrays') : l.Ready before arrays numbers past where
  faithful := h.faithful
  remembers := h.remembers
  begun := fun a ha => h.begun a (harrays ha)
  fresh := fun q hq hnumeric hsubset =>
    h.fresh q (hbefore hq) hnumeric (List.Subset.trans hsubset harrays)

/-- Names without numbers, or inside arrays that are left, are of no account. -/
theorem Ready.append (h : l.Ready before arrays numbers past) {more : List Site}
    (hmore : ∀ q ∈ more, q.numeric → ¬ q.arrays ⊆ arrays) :
    l.Ready (before ++ more) arrays numbers past where
  faithful := h.faithful
  remembers := h.remembers
  begun := h.begun
  fresh := by
    intro q hq hnumeric hsubset
    rcases List.mem_append.mp hq with hq | hq
    · exact h.fresh q hq hnumeric hsubset
    · exact absurd hsubset (hmore q hq hnumeric)

/-- A declaration that is not numeric is of no account. -/
theorem Ready.concat (h : l.Ready before arrays numbers past) (hnumeric : p.numeric = false) :
    l.Ready (before ++ [p]) arrays numbers past := by
  refine h.append fun q hq hq' => ?_
  rw [List.mem_singleton.mp hq, hnumeric] at hq'
  cases hq'

/-- An expression that knows its fields sees their latest nodes. -/
theorem Ready.sees (hplaced : Placed 0 l.size (l.sites [])) (h : l.Ready before arrays numbers past)
    (hp : l.Stands before p) (harrays : p.arrays = arrays) {e : Expr} {env : Expr.Env}
    (henv : env.numbers = numbers) (hknows : e.Knows (Site.names before)) :
    l.Sees p.index e env past := by
  intro info hinfo
  obtain ⟨q, hq, hdeclares⟩ := List.mem_flatMap.mp (hknows info hinfo)
  obtain ⟨info', hname, heq⟩ := List.mem_map.mp hdeclares
  have hname : q.name = some info' := Option.mem_toList.mp hname
  have hnumeric : q.numeric = true := congrArg Declared.numeric heq
  have hinfo' : info' = info := congrArg Declared.info heq
  subst hinfo'
  have hqmem := hp.mem_of_before hq
  have hindex := hplaced.named q hqmem _ hname
  have hremembers := h.remembers q hqmem hnumeric (by rw [hname]; rfl)
  rw [hindex, arraysAround_eq hplaced.sorted hqmem, arraysAround_eq hplaced.sorted hp.mem, harrays]
  refine ⟨?_, ?_⟩
  · cases hnode : latestNode q.index past with
    | none =>
      rw [hnode, Option.map_none, Option.map_eq_none_iff] at hremembers
      simp only [Expr.evalIn, henv, hindex, hremembers]
    | some v =>
      rw [hnode, Option.map_some] at hremembers
      obtain ⟨n, hn, hv⟩ := Option.map_eq_some_iff.mp hremembers
      refine ⟨n, hv.symm, ?_⟩
      simp only [Expr.evalIn, henv, hindex, hn]
  · intro hsubset
    obtain ⟨v, hv, hsince⟩ := h.fresh q hq hnumeric hsubset
    exact ⟨v, hv, fun a ha => ⟨h.begun a (hsubset ha), hsince a ha⟩⟩

/-- An expression that knows only sites in front sees their latest nodes. -/
theorem Ready.evaluated (hplaced : Placed 0 l.size (l.sites []))
    (h : l.Ready before arrays numbers past) (hp : l.Stands before p) (harrays : p.arrays = arrays)
    {e : Expr} {env : Expr.Env} (henv : env.numbers = numbers)
    (hknows : e.Knows (Site.names before)) :
    l.Ready before arrays numbers (.evaluated p.index e env :: past) where
  faithful := ⟨h.sees hplaced hp harrays henv hknows, h.faithful⟩
  remembers := h.remembers
  begun := fun a ha => List.mem_cons_of_mem _ (h.begun a ha)
  fresh := by
    intro q hq hnumeric hsubset
    obtain ⟨v, hv, hsince⟩ := h.fresh q hq hnumeric hsubset
    refine ⟨v, hv, fun a ha => ?_⟩
    rw [sinceElement_cons rfl, latestNode_evaluated]
    exact hsince a ha

/-- Nothing stands in front of a layout, and nothing has happened. -/
theorem ready_empty (l : Layout) : l.Ready [] [] .empty [] where
  faithful := trivial
  remembers := fun _ _ _ _ => rfl
  begun := fun _ ha => absurd ha List.not_mem_nil
  fresh := fun _ hq => absurd hq List.not_mem_nil

/-- A declaration gets a node, which the pass remembers if it is numeric and named. -/
theorem Ready.node (hplaced : Placed 0 l.size (l.sites [])) (h : l.Ready before arrays numbers past)
    (hp : l.Stands before p) {v : Value}
    (hothers : ∀ i, i ≠ p.index → numbers'.get? i = numbers.get? i)
    (hself : p.numeric → p.name.isSome → (numbers'.get? p.index).map some = some v.asInt) :
    l.Ready (before ++ [p]) arrays numbers' (.node p.index v :: past) where
  faithful := h.faithful
  remembers := by
    intro q hq hnumeric hname
    by_cases hindex : q.index = p.index
    · have hfound := find_of_sorted hplaced.sorted hq
      rw [hindex, find_of_sorted hplaced.sorted hp.mem] at hfound
      cases hfound
      rw [latestNode_node]
      exact hself hnumeric hname
    · rw [latestNode_node_of_ne (Ne.symm hindex), hothers _ hindex]
      exact h.remembers q hq hnumeric hname
  begun := fun a ha => List.mem_cons_of_mem _ (h.begun a ha)
  fresh := by
    intro q hq hnumeric hsubset
    rcases List.mem_append.mp hq with hq | hq
    · have hne := (hp.lt hplaced hq).ne'
      obtain ⟨w, hw, hsince⟩ := h.fresh q hq hnumeric hsubset
      refine ⟨w, by rwa [latestNode_node_of_ne hne], fun a ha => ?_⟩
      rw [sinceElement_cons rfl, latestNode_node_of_ne hne]
      exact hsince a ha
    · rw [List.mem_singleton.mp hq]
      refine ⟨v, latestNode_node v, fun a _ => ?_⟩
      rw [sinceElement_cons rfl, latestNode_node]

/-- An element of an array begins, which is around none of the declarations in front of it. -/
theorem Ready.element (h : l.Ready before arrays numbers past) {array : Nat}
    (houtside : ∀ q ∈ before, array ∉ q.arrays) :
    l.Ready before (arrays ++ [array]) numbers (.element array :: past) where
  faithful := h.faithful
  remembers := h.remembers
  begun := by
    intro a ha
    rcases List.mem_append.mp ha with ha | ha
    · exact List.mem_cons_of_mem _ (h.begun a ha)
    · rw [List.mem_singleton.mp ha]
      exact List.mem_cons_self
  fresh := by
    intro q hq hnumeric hsubset
    have hinside : q.arrays ⊆ arrays := by
      intro a ha
      rcases List.mem_append.mp (hsubset ha) with hmem | hmem
      · exact hmem
      · rw [List.mem_singleton.mp hmem] at ha
        exact absurd ha (houtside q hq)
    obtain ⟨v, hv, hsince⟩ := h.fresh q hq hnumeric hinside
    refine ⟨v, hv, fun a ha => ?_⟩
    have hother : (Event.element array).begins a = false := by
      rw [Event.begins, beq_eq_false_iff_ne]
      rintro rfl
      exact houtside q hq ha
    rw [sinceElement_cons hother, latestNode_element]
    exact hsince a ha

/-- An element of the array at a site begins, behind that site. -/
theorem Ready.enter (hplaced : Placed 0 l.size (l.sites [])) (hp : l.Stands before p)
    (h : l.Ready (before ++ [p]) arrays numbers past) :
    l.Ready (before ++ [p]) (arrays ++ [p.index]) numbers (.element p.index :: past) := by
  refine h.element fun q hq => ?_
  rcases List.mem_append.mp hq with hq | hq
  · exact hp.not_mem_arrays hplaced hq
  · rw [List.mem_singleton.mp hq]
    intro hmem
    exact (hplaced.outside p hp.mem _ hmem).false

/-- An element of the array at a site is over; what stands in it is of no account. -/
theorem Ready.leave {inner : List Site}
    (h : l.Ready (before ++ [p] ++ inner) (arrays ++ [p.index]) numbers past) :
    l.Ready (before ++ [p]) arrays numbers past :=
  h.mono (List.subset_append_left _ _) (List.subset_append_left _ _)

/-- Behind the array at a site. -/
theorem Ready.behind (hplaced : Placed 0 l.size (l.sites [])) (hp : l.Stands before p)
    (harrays : p.arrays = arrays) (h : l.Ready (before ++ [p]) arrays numbers past)
    {inner : List Site} (hinner : ∀ q ∈ inner, p.index ∈ q.arrays) :
    l.Ready (before ++ [p] ++ inner) arrays numbers past := by
  refine h.append fun q hq _ hsubset => ?_
  have hmem := hsubset (hinner q hq)
  rw [← harrays] at hmem
  exact (hplaced.outside p hp.mem _ hmem).false

/-- What it takes to evaluate the expressions of the declaration at a site. -/
structure Evaluates (l : Layout) (before : List Site) (arrays : List Nat) (head : Header) (p : Site) :
    Prop where
  placed : Placed 0 l.size (l.sites [])
  stands : l.Stands before p
  index : p.index = head.index
  arrays : p.arrays = arrays

section

variable {k : Layout} {after : List Site} {head : Header} {rest : Layout}
  (hplaced : Placed 0 l.size (l.sites []))
include hplaced

/-- The declarations in front of an item are those behind which it evaluates. -/
theorem evaluates_item {decl : Decl}
    (hl : l.sites [] = before ++ (item head decl rest).sites arrays ++ after) :
    Evaluates l before arrays head ⟨head.index, head.info, decl.isNumeric, arrays⟩ := by
  refine ⟨hplaced, ⟨rest.sites arrays ++ after, ?_⟩, rfl, rfl⟩
  rw [hl, List.append_assoc]
  rfl

theorem evaluates_group {length : Option Length} {body : Layout} {closing : Position}
    (hl : l.sites [] = before ++ (group head length body closing rest).sites arrays ++ after) :
    Evaluates l before arrays head ⟨head.index, head.info, false, arrays⟩ := by
  refine ⟨hplaced, ⟨body.sites (within arrays head length) ++ rest.sites arrays ++ after, ?_⟩,
    rfl, rfl⟩
  rw [hl, List.append_assoc]
  rfl

end

/-! ## Operations -/

/-- A condition on what a pass remembers and on its past. -/
abbrev Condition := Numbers → List Event → Prop

/-- Where the first condition holds the operation comes to the second if it succeeds, and every
expression that it evaluated saw the latest nodes, whether it succeeds or fails. -/
def Runs (l : Layout) {δ α : Type} (A : Condition) (w : WatchedM δ α) (B : α → Condition) : Prop :=
  ∀ s, A s.pass.numbers s.past →
    match w s with
    | .ok x s' => B x s'.pass.numbers s'.past
    | .error _ s' => l.Faithful s'.past

namespace Runs

variable {δ α β : Type} {A : Condition} {B : α → Condition} {C : β → Condition}

theorem pure {a : α} (h : ∀ n past, A n past → B a n past) : l.Runs (δ := δ) A (Pure.pure a) B :=
  fun _ hs => h _ _ hs

theorem raise {e : Error} (h : ∀ n past, A n past → l.Faithful past) :
    l.Runs (δ := δ) A (RecordLayout.raise e) B := fun _ hs => h _ _ hs

theorem fault {f : Fault} (h : ∀ n past, A n past → l.Faithful past) :
    l.Runs (δ := δ) A (RecordLayout.fault f) B := fun _ hs => h _ _ hs

/-- Operations one behind the other run from one condition to the next. -/
theorem bind {w : WatchedM δ α} {v : α → WatchedM δ β} (hw : l.Runs A w B)
    (hv : ∀ a, l.Runs (B a) (v a) C) : l.Runs A (w >>= v) C := by
  intro s hs
  have hws := hw s hs
  cases h : w s with
  | ok a s₁ =>
    rw [h] at hws
    rw [bind_of_ok h]
    exact hv a s₁ hws
  | error e s₁ =>
    rw [h] at hws
    rw [bind_of_error h]
    exact hws

theorem map {w : WatchedM δ α} {f : α → β} (hw : l.Runs A w fun a => C (f a)) :
    l.Runs A (f <$> w) C := by
  have h := hw.bind (v := fun a => Pure.pure (f a)) fun a => pure fun _ _ h => h
  rwa [bind_pure_comp] at h

/-- A result that is changed where the condition does not look at it. -/
theorem map_const {w : WatchedM δ α} {A' : Condition} (f : α → β) (hw : l.Runs A w fun _ => A') :
    l.Runs A (f <$> w) fun _ => A' := hw.map (C := fun _ => A')

theorem imp {B' : α → Condition} {w : WatchedM δ α} (hw : l.Runs A w B)
    (h : ∀ a n past, B a n past → B' a n past) : l.Runs A w B' := by
  intro s hs
  have hws := hw s hs
  cases hrun : w s with
  | ok a s₁ =>
    rw [hrun] at hws
    exact h _ _ _ hws
  | error e s₁ =>
    rw [hrun] at hws
    exact hws

theorem then_pure {w : WatchedM δ α} {A' : Condition} (hw : l.Runs A w fun _ => A') (b : β) :
    l.Runs A (w >>= fun _ => Pure.pure b) fun _ => A' := hw.bind fun _ => pure fun _ _ h => h

/-- What an operation that runs so has evaluated saw the latest nodes. -/
theorem faithful {w : WatchedM δ α} (hw : l.Runs A w B)
    (hB : ∀ a n past, B a n past → l.Faithful past) {s : WatchedState δ}
    (hs : A s.pass.numbers s.past) : l.Faithful (stateOf (w s)).past := by
  have hws := hw s hs
  cases h : w s with
  | ok a s₁ =>
    rw [h] at hws
    exact hB _ _ _ hws
  | error e s₁ =>
    rw [h] at hws
    exact hws

/-- A fact that comes with the first condition. -/
theorem of_and {φ : Prop} {w : WatchedM δ α} (h : φ → l.Runs A w B) :
    l.Runs (fun n past => A n past ∧ φ) w B := fun s hs => h hs.2 s hs.1

end Runs

end Layout

end RecordLayout
