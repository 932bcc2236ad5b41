import RecordLayout.Proofs.Pass.Cutoff
import RecordLayout.Proofs.Pass.WholeStream
import RecordLayout.Proofs.Value.Truncation

/-!
# Lenient passes beside strict ones

A lenient pass does what the strict one does, and looks for the end of the stream besides. The looks
move bytes to the front of the reader at most, so the two passes stay level until the lenient one
stops. Then no bit is left, and the strict pass, if it succeeds, finds only values that take none.
-/

namespace RecordLayout

/-- The same, but a record may end early. -/
def PassContext.leniently (ctx : PassContext) : PassContext :=
  { ctx with options := { ctx.options with lenient := true } }

namespace Decode

variable {α β : Type} {ctx : PassContext} {head : Header} {s s' t t' : PassState Reader}

/-- The passes have the same values and the same bits ahead of them. -/
abbrev Level : PassState Reader → PassState Reader → Prop := Cut none []

theorem Level.remaining (h : Level s s') : s'.stream.remaining = s.stream.remaining := h.1.remaining

/-- What a strict pass gives the lenient one gives from a level state. -/
theorem Survives.of_ok {m : PassM Reader α} (h : Survives none [] m) (hlevel : Level s s') {x : α}
    (hrun : m s = .ok x t) : ∃ t', m s' = .ok x t' ∧ Level t t' := by
  have hfirst := h s s' hlevel
  rwa [hrun] at hfirst

/-- Level passes look alike. -/
theorem looksAlike_level : Reader.LooksAlike none [] := .inr rfl

/-! ## What the lenient pass gives -/

/-- The lenient pass has what the strict one has and is level with it, or it has stopped with less,
and neither has a bit left. -/
def Trails (cut : α → α → Prop) (x : α) (t : PassState Reader) :
    α × Flow → PassState Reader → Prop
  | (y, .goOn), t' => y = x ∧ Level t t'
  | (y, .stop), t' => cut y x ∧ t.stream.remaining = 0 ∧ t'.stream.remaining = 0

/-- A tree that trails another does so within a larger tree. -/
theorem Trails.map {cut : α → α → Prop} {cut' : β → β → Prop} {x y : α} {flow : Flow}
    (h : Trails cut x t (y, flow) t') {g : α → β} (hg : ∀ y, cut y x → cut' (g y) (g x)) :
    Trails cut' (g x) t (g y, flow) t' := by
  cases flow with
  | goOn => exact ⟨congrArg g h.1, h.2⟩
  | stop => exact ⟨hg y h.1, h.2⟩

/-- Where the strict operation succeeds it does not stop, and the lenient one follows it. -/
def Concedes (cut : α → α → Prop) (strict lenient : PassM Reader (α × Flow)) : Prop :=
  ∀ s x flow t, s.stream.Sound → s.stream.source.failure = none → strict s = .ok (x, flow) t →
    flow = .goOn ∧ Goes s.stream t ∧
      ∀ s', Level s s' → ∃ y t', lenient s' = .ok y t' ∧ Trails cut x t y t'

/-- The same of one element of a repetition. -/
def StepConcedes (strict lenient : PassM Reader (Step Value)) : Prop :=
  ∀ s step t, s.stream.Sound → s.stream.source.failure = none → strict s = .ok step t →
    ∃ v, step = .next v ∧ Goes s.stream t ∧ ∀ s', Level s s' → ∃ step' t', lenient s' = .ok step' t' ∧
      match step' with
      | .next v' => v' = v ∧ Level t t'
      | .last v' => (∀ rest, Elements.Truncates v'.toList (v :: rest)) ∧
        t.stream.remaining = 0 ∧ t'.stream.remaining = 0

/-- A structure whose body was cut off before its first field is no element any more. -/
theorem stepConcedes_ofBody {body body' : PassM Reader (List Field × Flow)}
    (h : Concedes Fields.Truncates body body') :
    StepConcedes (Step.ofBody <$> body) (Step.ofBody <$> body') := by
  intro s step t hs hends hrun
  obtain ⟨⟨fields, flow⟩, hfields, rfl⟩ := map_eq_ok.mp hrun
  obtain ⟨rfl, hgoes, hlenient⟩ := h _ _ _ _ hs hends hfields
  refine ⟨.struct fields, rfl, hgoes, fun s' hlevel => ?_⟩
  obtain ⟨⟨found, flow'⟩, t', hfound, htrails⟩ := hlenient s' hlevel
  refine ⟨_, t', map_of_ok hfound, ?_⟩
  cases flow' with
  | goOn => exact ⟨congrArg Value.struct htrails.1, htrails.2⟩
  | stop =>
    obtain ⟨hcut, hspent⟩ := htrails
    refine ⟨fun rest => ?_, hspent⟩
    cases found with
    | nil =>
      cases hcut
      exact .dropped
    | cons f found => exact .inside hcut

/-! ## Repetitions -/

section

variable {element element' : PassM Reader (Step Value)} (h : StepConcedes element element')
include h

/-- Elements that are counted concede if each does. -/
theorem concedes_times (count : Nat) :
    Concedes Elements.Truncates (times element count) (times element' count) := by
  induction count with
  | zero =>
    intro s xs flow t hs hends hrun
    cases hrun
    exact ⟨rfl, Reader.From.refl hs, fun s' hlevel => ⟨_, s', rfl, rfl, hlevel⟩⟩
  | succ count ih =>
    intro s xs flow t hs hends hrun
    rw [times] at hrun
    obtain ⟨step, s₁, hstep, hrun⟩ := bind_eq_ok.mp hrun
    obtain ⟨v, rfl, hgoes, hlenient⟩ := h _ _ _ hs hends hstep
    obtain ⟨⟨more, flow'⟩, s₂, hmore, hrun⟩ := bind_eq_ok.mp hrun
    cases hrun
    obtain ⟨rfl, hgoes', hlater⟩ := ih _ _ _ _ hgoes.sound (hgoes.failure.trans hends) hmore
    refine ⟨rfl, hgoes.trans hgoes', fun s' hlevel => ?_⟩
    obtain ⟨step', s₁', hstep', htrails⟩ := hlenient s' hlevel
    rw [times, bind_of_ok hstep']
    cases step' with
    | last v' =>
      -- The strict pass finds the other elements as well, but no bit for them.
      obtain ⟨hcut, hspent, hspent'⟩ := htrails
      exact ⟨_, s₁', rfl, hcut more, hgoes'.spent hspent, hspent'⟩
    | next v' =>
      obtain ⟨rfl, hlevel₁⟩ := htrails
      obtain ⟨⟨more', flow'⟩, t', hmore', htrails⟩ := hlater s₁' hlevel₁
      exact ⟨_, t', bind_of_ok hmore', htrails.map fun _ => .behind⟩

/-- Where a structure was cut off, no further one can begin. -/
theorem concedes_toEnd (least : Nat) (idle : Error) :
    Concedes Elements.Truncates (toEnd least ctx.options.bitOrder idle element)
      (toEnd least ctx.options.bitOrder idle element') := by
  intro s xs flow t hs hends hrun
  have hlook : Survives none [] (PassM.onStream (Reader.atEndFor least ctx.options.bitOrder)) :=
    PassM.foretells_onStream (Reader.foretells_atEndFor looksAlike_level least _)
  have key := toEnd_induction element
    (P := fun s xs flow t => s.stream.Sound → s.stream.source.failure = none →
      flow = .goOn ∧ Goes s.stream t ∧ ∀ s', Level s s' → ∃ y t',
        toEnd least ctx.options.bitOrder idle element' s' = .ok y t' ∧
          Trails Elements.Truncates xs t y t')
    (fun s t hat hs hends => by
      refine ⟨rfl, (look_of_goes hends (.refl hs) hat).1, fun s' hlevel => ?_⟩
      obtain ⟨t', hat', hlevel'⟩ := hlook.of_ok hlevel hat
      exact ⟨([], .goOn), t', by rw [toEnd, hat'], rfl, hlevel'⟩)
    (fun s s₁ v t hat hstep hs hends => by
      -- A strict element never ends the record.
      have hgoes := (look_of_goes hends (.refl hs) hat).1
      obtain ⟨_, hnext, -⟩ := h _ _ _ hgoes.sound (hgoes.failure.trans hends) hstep
      cases hnext)
    (fun s s₁ v s₂ more flow t hat hstep hless hrest hs hends => by
      have hgoes := (look_of_goes hends (.refl hs) hat).1
      obtain ⟨_, hnext, hgoes', hlenient⟩ := h _ _ _ hgoes.sound (hgoes.failure.trans hends) hstep
      cases hnext
      replace hgoes := hgoes.trans hgoes'
      obtain ⟨rfl, hgoes', hlater⟩ := hrest hgoes.sound (hgoes.failure.trans hends)
      refine ⟨rfl, hgoes.trans hgoes', fun s' hlevel => ?_⟩
      obtain ⟨s₁', hat', hlevel₁⟩ := hlook.of_ok hlevel hat
      obtain ⟨step', s₂', hstep', htrails⟩ := hlenient s₁' hlevel₁
      rw [toEnd, hat']
      simp only [hstep']
      cases step' with
      | last v' =>
        obtain ⟨hcut, hspent, hspent'⟩ := htrails
        exact ⟨_, s₂', rfl, hcut more, hgoes'.spent hspent, hspent'⟩
      | next v' =>
        obtain ⟨rfl, hlevel₂⟩ := htrails
        obtain ⟨⟨more', flow'⟩, t', hmore', htrails⟩ := hlater s₂' hlevel₂
        refine ⟨(v' :: more', flow'), t', ?_, htrails.map fun _ => .behind⟩
        -- Level readers have the same number of bits left, so both loops take the element for one.
        have hless' : s₂'.stream.remaining < s'.stream.remaining := by
          rwa [hlevel₂.remaining, hlevel.remaining]
        simp only [hless', if_true, hmore'])
    hrun
  exact key hs hends

theorem concedes_elements (least : Nat) (idle : Error) (count : Option Nat) :
    Concedes Elements.Truncates (elements ctx least idle element count)
      (elements ctx.leniently least idle element' count) := by
  cases count with
  | some n => exact concedes_times h n
  | none => exact concedes_toEnd h least idle

end

/-! ## Declarations -/

/-- Nothing but the ends of records depends on the option. -/
theorem item_leniently (decl : Decl) : item ctx.leniently head decl = item ctx head decl := by
  cases decl <;> rfl

/-- A structure or an array of them concedes if its body does. -/
theorem concedes_group {body body' : PassM Reader (List Field × Flow)}
    (h : Concedes Fields.Truncates body body') (length : Option Length) (certain : Nat) :
    Concedes Value.Truncates (group ctx head length certain body)
      (group ctx.leniently head length certain body') := by
  intro s v flow t hs hends hrun
  cases length with
  | none =>
    obtain ⟨⟨fields, flow'⟩, s₁, hfields, hrun⟩ := bind_eq_ok.mp hrun
    cases hrun
    obtain ⟨rfl, hgoes, hlenient⟩ := h _ _ _ _ hs hends hfields
    refine ⟨rfl, hgoes, fun s' hlevel => ?_⟩
    obtain ⟨⟨found, flow'⟩, t', hfound, htrails⟩ := hlenient s' hlevel
    exact ⟨_, t', bind_of_ok hfound, htrails.map fun _ => .struct⟩
  | some length =>
    obtain ⟨count, s₁, hcount, hrun⟩ := bind_eq_ok.mp hrun
    obtain ⟨⟨items, flow'⟩, s₂, hitems, hrun⟩ := bind_eq_ok.mp hrun
    cases hrun
    have hgoes : Goes s.stream s₁ := forward_parts.arrayCount length _ _ _ (.refl hs) hcount
    obtain ⟨rfl, hgoes', hlenient⟩ :=
      concedes_elements (stepConcedes_ofBody h) _ _ _ _ _ _ _ hgoes.sound
        (hgoes.failure.trans hends) hitems
    refine ⟨rfl, hgoes.trans hgoes', fun s' hlevel => ?_⟩
    obtain ⟨s₁', hcount', hlevel₁⟩ := (survives_parts.arrayCount length).of_ok hlevel hcount
    obtain ⟨⟨found, flow'⟩, t', hfound, htrails⟩ := hlenient s₁' hlevel₁
    exact ⟨_, t', (bind_of_ok hcount').trans (bind_of_ok hfound), htrails.map fun _ => .list⟩

/-- The look of the lenient pass for the end of the record. -/
theorem endsBefore_leniently (hlevel : Level s s') (holds : Bool) :
    ∃ ends t', endsBefore ctx.leniently holds s' = .ok ends t' ∧ Level s t' ∧
      (ends = true → holds = true ∧ s.stream.remaining = 0) := by
  cases holds with
  | false => exact ⟨false, s', rfl, hlevel, nofun⟩
  | true =>
    obtain ⟨r, hlook, hr⟩ := hlevel.1.isExhausted
    refine ⟨_, _, PassM.onStream_of_ok hlook, ⟨hr, hlevel.2⟩, fun hzero => ⟨rfl, ?_⟩⟩
    rw [← hlevel.remaining]
    exact of_decide_eq_true hzero

/-- A declaration that holds a value gives a node. -/
theorem node_of_holdsValue {decl : Decl} (hholds : decl.kind.holdsValue = true) {node : Option Field}
    (hrun : item ctx head decl s = .ok node t) : ∃ f, node = some f := by
  cases decl with
  | value type length =>
    obtain ⟨v, s₁, -, hrun⟩ := bind_eq_ok.mp hrun
    cases length with
    | none =>
      obtain ⟨_, s₂, -, hrun⟩ := bind_eq_ok.mp hrun
      cases hrun
      exact ⟨_, rfl⟩
    | some length =>
      cases hrun
      exact ⟨_, rfl⟩
  | computed | align | skip | reset => cases hholds

/-! ## Layouts -/

/-- What the strict pass has more where the lenient one stops before a declaration. -/
theorem trails_stop {x : List Field} (hlevel : Level s s') (hgoes : Goes s.stream t)
    (hspent : s.stream.remaining = 0) (hmore : x ≠ []) :
    Trails Fields.Truncates x t ([], .stop) s' := by
  obtain ⟨f, rest, rfl⟩ := List.exists_cons_of_ne_nil hmore
  exact ⟨.before, hgoes.spent hspent, hlevel.remaining.trans hspent⟩

/-- The induction is on the layout. What the strict pass gives for the rest is known before the two
passes are compared, since the lenient one may not come to it. -/
theorem concedes_fields (hstrict : ctx.options.lenient = false) {l : Layout}
    (hcustom : l.customUses = []) :
    Concedes Fields.Truncates (fields ctx l) (fields ctx.leniently l) := by
  induction l with
  | done =>
    intro s found flow t hs hends hrun
    cases hrun
    exact ⟨rfl, .refl hs, fun s' hlevel => ⟨_, s', rfl, rfl, hlevel⟩⟩
  | item head decl rest ih =>
    intro s found flow t hs hends hrun
    obtain ⟨hdecl, hrest⟩ := List.append_eq_nil_iff.mp hcustom
    rw [fields, endsBefore_of_strict hstrict, pure_bind] at hrun
    obtain ⟨node, s₁, hnode, hrun⟩ := bind_eq_ok.mp hrun
    obtain ⟨⟨more, flow'⟩, s₂, hmore, hrun⟩ := bind_eq_ok.mp hrun
    cases hrun
    have hgoes : Goes s.stream s₁ :=
      forward_parts.item (fun use _ => forward_custom use) (fun _ => trivial) _ _ _
        (.refl hs) hnode
    obtain ⟨rfl, hgoes', hlenient⟩ :=
      ih hrest _ _ _ _ hgoes.sound (hgoes.failure.trans hends) hmore
    refine ⟨rfl, hgoes.trans hgoes', fun s' hlevel => ?_⟩
    obtain ⟨ends, s₁', hlook, hlevel₁, hspent⟩ := endsBefore_leniently hlevel decl.kind.holdsValue
    rw [fields, bind_of_ok hlook]
    cases ends with
    | true =>
      -- The strict pass has at least the node of the declaration before which the other one stops.
      obtain ⟨hholds, hspent⟩ := hspent rfl
      obtain ⟨f, rfl⟩ := node_of_holdsValue hholds hnode
      exact ⟨_, s₁', rfl, trails_stop hlevel₁ (hgoes.trans hgoes') hspent (List.cons_ne_nil f more)⟩
    | false =>
      have hsurvives : Survives none [] (item ctx head decl) :=
        survives_parts.item (fun use huse => absurd hdecl (by simp [huse]))
          fun _ => looksAlike_level
      obtain ⟨s₂', hnode', hlevel₂⟩ := hsurvives.of_ok hlevel₁ hnode
      obtain ⟨⟨more', flow'⟩, t', hmore', htrails⟩ := hlenient s₂' hlevel₂
      rw [← item_leniently] at hnode'
      exact ⟨_, t', (bind_of_ok hnode').trans (bind_of_ok hmore'),
        htrails.map fun _ hcut => hcut.append node.toList⟩
  | group head length body closing rest ihbody ihrest =>
    intro s found flow t hs hends hrun
    obtain ⟨hbody, hrest⟩ := List.append_eq_nil_iff.mp hcustom
    rw [fields, endsBefore_of_strict hstrict, pure_bind] at hrun
    obtain ⟨⟨v, flow₁⟩, s₁, hgroup, hrun⟩ := bind_eq_ok.mp hrun
    obtain ⟨rfl, hgoes, hlenient⟩ :=
      concedes_group (ihbody hbody) _ _ _ _ _ _ hs hends hgroup
    obtain ⟨⟨more, flow'⟩, s₂, hmore, hrun⟩ := bind_eq_ok.mp hrun
    cases hrun
    obtain ⟨rfl, hgoes', hlater⟩ :=
      ihrest hrest _ _ _ _ hgoes.sound (hgoes.failure.trans hends) hmore
    refine ⟨rfl, hgoes.trans hgoes', fun s' hlevel => ?_⟩
    obtain ⟨ends, s₁', hlook, hlevel₁, hspent⟩ := endsBefore_leniently hlevel body.holdsValue
    rw [fields, bind_of_ok hlook]
    cases ends with
    | true =>
      exact ⟨_, s₁', rfl,
        trails_stop hlevel₁ (hgoes.trans hgoes') (hspent rfl).2 (List.cons_ne_nil _ more)⟩
    | false =>
      obtain ⟨⟨v', flow₁⟩, s₂', hgroup', htrails⟩ := hlenient s₁' hlevel₁
      cases flow₁ with
      | stop =>
        -- What is left of the structure stays, and nothing behind it.
        obtain ⟨hcut, hspent, hspent'⟩ := htrails
        exact ⟨_, s₂', bind_of_ok hgroup', .under (f := .new head.info v) hcut,
          hgoes'.spent hspent, hspent'⟩
      | goOn =>
        obtain ⟨rfl, hlevel₂⟩ := htrails
        obtain ⟨⟨more', flow'⟩, t', hmore', htrails⟩ := hlater s₂' hlevel₂
        exact ⟨_, t', (bind_of_ok hgroup').trans (bind_of_ok hmore'),
          htrails.map fun _ => .behind⟩

end Decode

end RecordLayout
