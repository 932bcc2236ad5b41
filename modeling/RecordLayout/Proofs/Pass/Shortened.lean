import RecordLayout.Proofs.Bits.Shortened
import RecordLayout.Proofs.Pass.Leniency

/-!
# Passes over streams that end where the record does

A pass gives the same over a stream that ends behind the last byte it fetches, unless it looked for
another byte there. Then a lenient pass over the shorter stream stops at that look, with a tree that
is cut off, and the pass over the longer stream keeps the byte, which no record has.
-/

namespace RecordLayout.Decode

variable {α β : Type} {ctx : PassContext} {head : Header} {limit : Nat}
  {s s' t t' : PassState Reader}

/-- The second pass is the first one over a stream that ends behind the limit. -/
abbrev Shortened (limit : Nat) : PassState Reader → PassState Reader → Prop :=
  PassState.Along (Reader.Shortened limit)

/-- The operation fetches nothing from behind the limit that it would not find before it. -/
abbrev FitsPass (limit : Nat) (m : PassM Reader α) : Prop :=
  Fits PassState.stream (Shortened limit) limit m

theorem fits_onStream {m : ReadM α} (h : Fits id (Reader.Shortened limit) limit m) :
    FitsPass limit (PassM.onStream m) := by
  intro s x t hrun
  obtain ⟨r, hm, rfl⟩ := PassM.onStream_eq_ok.mp hrun
  obtain ⟨hpast, hfits⟩ := h s.stream x r hm
  refine ⟨hpast, fun hlimit s' hs => ?_⟩
  obtain ⟨r', hm', hr⟩ := hfits hlimit s'.stream hs.1
  exact ⟨_, PassM.onStream_of_ok hm', hr, hs.2⟩

theorem fits_register (info : Option FieldInfo) (v : Value) :
    FitsPass limit (PassM.register info v) := by
  unfold PassM.register
  split
  · rename_i info n hn
    intro s x t h
    cases h
    exact ⟨.refl _, fun _ s' hs => ⟨_, rfl, hs.1, congrArg (·.put info.index n) hs.2⟩⟩
  · exact .pure _

/-- What an expression depends on is the same in both passes. -/
theorem fits_eval (e : Expr) : FitsPass limit (PassM.eval ctx e) := by
  intro s x t h
  obtain ⟨hvalue, questions, rfl⟩ := (PassM.computes_eval ctx s e).eq_ok h
  refine ⟨.refl _, fun _ s' hs => ?_⟩
  have henv : PassM.env ctx s' = PassM.env ctx s := by
    rw [PassM.env, PassM.env, hs.2]
    congr 1
    exact congrArg Int64.ofNat hs.1.byteCount
  obtain ⟨questions', hrun⟩ := PassM.computes_eval ctx s' e
  rw [henv, hvalue] at hrun
  exact ⟨_, hrun, hs⟩

/-- All parts of a pass that does not look for the end fit into what is left of the input. -/
theorem fits_parts : Parts ctx False fun m => FitsPass limit m where
  pure := .pure
  throw := .throw
  bind_of_ok := .bind_of_ok
  eval := fits_eval
  register := fits_register
  number _ _ := fits_onStream (Reader.fits_parts.readNumber _ _ _)
  bits _ := fits_onStream (Reader.fits_parts.readBits _ _)
  text := fits_onStream (Reader.fits_parts.readText _)
  byte := fits_onStream (Reader.fits_parts.readByte _)
  bytes n := fits_onStream (Reader.fits_parts.readBytes n _)
  align n := fits_onStream (Reader.fits_parts.align n)
  skip n := fits_onStream (Reader.fits_parts.skipBytes n)
  reset := fits_onStream Reader.fits_parts.reset
  isExhausted := nofun
  toEnd := nofun

/-! ## Where the passes part -/

/-- The second pass, over the shorter stream, is level with the first one. -/
def Meets (limit : Nat) (x : α) (t : PassState Reader) (y : α) (t' : PassState Reader) : Prop :=
  y = x ∧ Shortened limit t t'

/-- The second pass has stopped at the end of its stream, where the first one took another byte and
went on. -/
def Passes (ctx : PassContext) (limit : Nat) (t t' : PassState Reader) : Prop :=
  ctx.options.lenient = true ∧ limit < t.stream.taken ∧ t'.stream.fetched = limit

theorem Passes.past (h : Passes ctx limit s t') (hpast : Reader.Past s.stream t.stream) :
    Passes ctx limit t t' := ⟨h.1, h.2.1.trans_le hpast.taken, h.2.2⟩

/-- What the pass over the shorter stream gives is the same, or cut off where it has stopped. -/
def KeepsUp (ctx : PassContext) (limit : Nat) (cut : α → α → Prop) (x : α × Flow)
    (t : PassState Reader) (y : α × Flow) (t' : PassState Reader) : Prop :=
  Meets limit x t y t' ∨ Passes ctx limit t t' ∧ y.2 = .stop ∧ cut y.1 x.1

/-- Wherever the operation fetches nothing from behind the limit, it follows over the shorter
stream. -/
def Shortens (ctx : PassContext) (limit : Nat) (cut : α → α → Prop)
    (m : PassM Reader (α × Flow)) : Prop :=
  ∀ s x t, m s = .ok x t → Reader.Past s.stream t.stream ∧
    (t.stream.fetched ≤ limit → ∀ s', Shortened limit s s' →
      ∃ y t', m s' = .ok y t' ∧ KeepsUp ctx limit cut x t y t')

/-- An operation before one that follows. -/
theorem Shortens.after {cut : β → β → Prop} {m : PassM Reader α} {g : α → PassM Reader (β × Flow)}
    (hm : FitsPass limit m) (hg : ∀ a s t, m s = .ok a t → Shortens ctx limit cut (g a)) :
    Shortens ctx limit cut (m >>= g) := by
  intro s x t hrun
  obtain ⟨a, s₁, ha, hx⟩ := bind_eq_ok.mp hrun
  obtain ⟨hpast, hfirst⟩ := hm _ _ _ ha
  obtain ⟨hpast', hlater⟩ := hg a s s₁ ha _ _ _ hx
  refine ⟨hpast.trans hpast', fun hlimit s' hs => ?_⟩
  obtain ⟨s₁', ha', hs₁⟩ := hfirst (hpast'.fetched.trans hlimit) s' hs
  obtain ⟨y, t', hy, hkeeps⟩ := hlater hlimit s₁' hs₁
  exact ⟨y, t', (bind_of_ok ha').trans hy, hkeeps⟩

/-- What is made of a result that may be cut off. -/
theorem Shortens.map {cut : α → α → Prop} {m : PassM Reader (α × Flow)}
    (h : Shortens ctx limit cut m) (cut' : β → β → Prop) (g : α → β)
    (hg : ∀ x y, cut y x → cut' (g y) (g x)) :
    Shortens ctx limit cut' (do
      let (x, flow) ← m
      pure (g x, flow)) := by
  intro s x t hrun
  obtain ⟨⟨a, flow⟩, s₁, ha, hrun⟩ := bind_eq_ok.mp hrun
  cases hrun
  obtain ⟨hpast, hshorter⟩ := h _ _ _ ha
  refine ⟨hpast, fun hlimit s' hs => ?_⟩
  obtain ⟨⟨b, flow'⟩, t', hb, hkeeps⟩ := hshorter hlimit s' hs
  refine ⟨_, t', bind_of_ok hb, ?_⟩
  rcases hkeeps with ⟨heq, hlevel⟩ | ⟨hpasses, hstop, hcut⟩
  · cases heq
    exact .inl ⟨rfl, hlevel⟩
  · exact .inr ⟨hpasses, hstop, hg _ _ hcut⟩

/-- The elements of a step. -/
def Step.found : Step α → List α
  | .next x => [x]
  | .last x => x.toList

/-- The same of one element of a repetition. -/
def StepShortens (ctx : PassContext) (limit : Nat) (element : PassM Reader (Step Value)) : Prop :=
  ∀ s step t, element s = .ok step t → Reader.Past s.stream t.stream ∧
    (t.stream.fetched ≤ limit → ∀ s', Shortened limit s s' →
      ∃ step' t', element s' = .ok step' t' ∧ (Meets limit step t step' t' ∨
        Passes ctx limit t t' ∧ ∃ v, step' = .last v ∧
          ∀ rest, Elements.Truncates v.toList (step.found ++ rest)))

/-- A structure whose body was cut off before its first field is no element any more. -/
theorem stepShortens_ofBody {body : PassM Reader (List Field × Flow)}
    (h : Shortens ctx limit Fields.Truncates body) :
    StepShortens ctx limit (Step.ofBody <$> body) := by
  intro s step t hrun
  obtain ⟨⟨fields, flow⟩, hfields, rfl⟩ := map_eq_ok.mp hrun
  obtain ⟨hpast, hshorter⟩ := h _ _ _ hfields
  refine ⟨hpast, fun hlimit s' hs => ?_⟩
  obtain ⟨⟨found, flow'⟩, t', hfound, hkeeps⟩ := hshorter hlimit s' hs
  refine ⟨_, t', map_of_ok hfound, ?_⟩
  rcases hkeeps with ⟨heq, hlevel⟩ | ⟨hpasses, hstop, hcut⟩
  · exact .inl ⟨congrArg Step.ofBody heq, hlevel⟩
  · obtain rfl : flow' = .stop := hstop
    refine .inr ⟨hpasses, _, rfl, fun rest => ?_⟩
    -- The body of the longer pass is not empty, so its structure is an element in any case.
    have hone : (Step.ofBody (fields, flow)).found = [.struct fields] := by
      cases flow with
      | goOn => rfl
      | stop =>
        cases hcut <;> rfl
    rw [hone]
    cases found with
    | nil =>
      cases hcut
      exact .dropped
    | cons f found => exact .inside hcut

theorem shortens_times {element : PassM Reader (Step Value)} (h : StepShortens ctx limit element)
    (count : Nat) : Shortens ctx limit Elements.Truncates (times element count) := by
  induction count with
  | zero =>
    intro s x t hrun
    cases hrun
    exact ⟨.refl _, fun _ s' hs => ⟨_, s', rfl, .inl ⟨rfl, hs⟩⟩⟩
  | succ count ih =>
    intro s x t hrun
    rw [times] at hrun
    obtain ⟨step, s₁, hstep, hrun⟩ := bind_eq_ok.mp hrun
    obtain ⟨hpast, hshorter⟩ := h _ _ _ hstep
    cases step with
    | last v =>
      cases hrun
      refine ⟨hpast, fun hlimit s' hs => ?_⟩
      obtain ⟨step', t', hstep', hkeeps⟩ := hshorter hlimit s' hs
      rw [times, bind_of_ok hstep']
      rcases hkeeps with ⟨rfl, hlevel⟩ | ⟨hpasses, v', rfl, hcut⟩
      · exact ⟨_, t', rfl, .inl ⟨rfl, hlevel⟩⟩
      · have hnone := hcut []
        rw [List.append_nil] at hnone
        exact ⟨_, t', rfl, .inr ⟨hpasses, rfl, hnone⟩⟩
    | next v =>
      obtain ⟨hpast', hlater⟩ := ih.map Elements.Truncates (v :: ·) (fun _ _ => .behind) _ _ _ hrun
      refine ⟨hpast.trans hpast', fun hlimit s' hs => ?_⟩
      obtain ⟨step', s₁', hstep', hkeeps⟩ := hshorter (hpast'.fetched.trans hlimit) s' hs
      rw [times, bind_of_ok hstep']
      rcases hkeeps with ⟨rfl, hlevel⟩ | ⟨hpasses, v', rfl, hcut⟩
      · exact hlater hlimit s₁' hlevel
      · obtain ⟨⟨more, flow⟩, s₂, -, hrun⟩ := bind_eq_ok.mp hrun
        cases hrun
        exact ⟨_, s₁', rfl, .inr ⟨hpasses.past hpast', rfl, hcut more⟩⟩

/-! ## Layouts -/

theorem shortens_group {body : PassM Reader (List Field × Flow)}
    (h : Shortens ctx limit Fields.Truncates body) {length : Option Length}
    (hbounded : length ≠ some .unbounded) (certain : Nat) :
    Shortens ctx limit Value.Truncates (group ctx head length certain body) := by
  cases length with
  | none => exact h.map Value.Truncates .struct fun _ _ => .struct
  | some length =>
    refine .after (fits_parts.arrayCount length) fun count s t hcount => ?_
    cases count with
    | none =>
      have hlength := PassContext.eq_unbounded_of_count
        ((PassM.computes_arrayCount ctx s length).eq_ok hcount).1
      exact absurd (congrArg some hlength) hbounded
    | some n =>
      exact (shortens_times (stepShortens_ofBody h) n).map Value.Truncates .list fun _ _ => .list

/-- The look for the end of the record before a part of the layout. The passes part here, and the one
over the shorter stream stops, where the part gives something in the other pass. -/
theorem shortens_look {holds : Bool} {m : PassM Reader (List Field × Flow)}
    (h : Shortens ctx limit Fields.Truncates m)
    (hmore : holds = true → ∀ s x t, m s = .ok x t → x.1 ≠ []) :
    Shortens ctx limit Fields.Truncates (do
      if ← endsBefore ctx holds then pure ([], .stop) else m) := by
  intro s x t hrun
  obtain ⟨ends, s₁, hends, hrun⟩ := bind_eq_ok.mp hrun
  unfold endsBefore at hends ⊢
  by_cases hlook : (ctx.options.lenient && holds) = true
  · simp only [hlook, if_true] at hends ⊢
    rw [Bool.and_eq_true] at hlook
    obtain ⟨r, hexhausted, rfl⟩ := PassM.onStream_eq_ok.mp hends
    have hpast := Reader.past_of_isExhausted hexhausted
    cases ends with
    | true =>
      cases hrun
      refine ⟨hpast, fun hlimit s' hs => ?_⟩
      obtain ⟨r', hexhausted', hr⟩ | ⟨hcontra, -⟩ := hs.1.isExhausted hexhausted
      · exact ⟨_, _, bind_of_ok (PassM.onStream_of_ok hexhausted'), .inl ⟨rfl, hr, hs.2⟩⟩
      · cases hcontra
    | false =>
      obtain ⟨hpast', hlater⟩ := h _ _ _ hrun
      refine ⟨hpast.trans hpast', fun hlimit s' hs => ?_⟩
      obtain ⟨r', hexhausted', hr⟩ | ⟨-, htaken, r', hexhausted', hfetched⟩ :=
        hs.1.isExhausted hexhausted
      · obtain ⟨y, t', hy, hkeeps⟩ := hlater hlimit { s' with stream := r' } ⟨hr, hs.2⟩
        exact ⟨y, t', (bind_of_ok (PassM.onStream_of_ok hexhausted')).trans hy, hkeeps⟩
      · obtain ⟨f, rest, hx⟩ := List.exists_cons_of_ne_nil (hmore hlook.2 _ _ _ hrun)
        have hpasses : Passes ctx limit t { s' with stream := r' } :=
          ⟨hlook.1, htaken.trans_le hpast'.taken, hfetched⟩
        exact ⟨_, _, bind_of_ok (PassM.onStream_of_ok hexhausted'),
          .inr ⟨hpasses, rfl, hx ▸ .before⟩⟩
  · simp only [hlook] at hends ⊢
    cases hends
    exact h _ _ _ hrun

/-- The induction is on the layout. -/
theorem shortens_fields {l : Layout} (hcustom : l.customUses = []) (hbounded : l.endless = false) :
    Shortens ctx limit Fields.Truncates (fields ctx l) := by
  induction l with
  | done =>
    intro s x t hrun
    cases hrun
    exact ⟨.refl _, fun _ s' hs => ⟨_, s', rfl, .inl ⟨rfl, hs⟩⟩⟩
  | item head decl rest ih =>
    obtain ⟨hdecl, hrest⟩ := List.append_eq_nil_iff.mp hcustom
    simp only [Layout.endless, Bool.or_eq_false_iff, beq_eq_false_iff_ne] at hbounded
    have hitem : FitsPass limit (item ctx head decl) :=
      fits_parts.item (fun use huse => absurd hdecl (by simp [huse])) hbounded.1
    refine shortens_look (.after hitem fun node _ _ _ => ?_) fun hholds s x t hrun => ?_
    · exact (ih hrest hbounded.2).map Fields.Truncates (node.toList ++ ·) fun _ _ hcut =>
        hcut.append node.toList
    · obtain ⟨node, s₁, hnode, hrun⟩ := bind_eq_ok.mp hrun
      obtain ⟨⟨more, flow⟩, s₂, -, hrun⟩ := bind_eq_ok.mp hrun
      cases hrun
      obtain ⟨f, rfl⟩ := node_of_holdsValue hholds hnode
      exact List.cons_ne_nil f more
  | group head length body closing rest ihbody ihrest =>
    obtain ⟨hbody, hrest⟩ := List.append_eq_nil_iff.mp hcustom
    simp only [Layout.endless, Bool.or_eq_false_iff, beq_eq_false_iff_ne] at hbounded
    refine shortens_look (fun s x t hrun => ?_) fun _ s x t hrun => ?_
    · obtain ⟨⟨v, flow₁⟩, s₁, hgroup, hrun⟩ := bind_eq_ok.mp hrun
      obtain ⟨hpast, hfirst⟩ :=
        shortens_group (ihbody hbody hbounded.1.2) hbounded.1.1 _ _ _ _ hgroup
      cases flow₁ with
      | stop =>
        -- Cut off in the structure: what the shorter source gives is cut off there or before.
        cases hrun
        refine ⟨hpast, fun hlimit s' hs => ?_⟩
        obtain ⟨⟨v', flow'⟩, t', hgroup', hkeeps⟩ := hfirst hlimit s' hs
        rcases hkeeps with ⟨heq, hlevel⟩ | ⟨hpasses, hstop, hcut⟩
        · cases heq
          exact ⟨_, t', bind_of_ok hgroup', .inl ⟨rfl, hlevel⟩⟩
        · cases hstop
          exact ⟨_, t', bind_of_ok hgroup', .inr ⟨hpasses, rfl, .under (f := .new head.info v) hcut⟩⟩
      | goOn =>
        obtain ⟨hpast', hlater⟩ := (ihrest hrest hbounded.2).map Fields.Truncates
          (.new head.info v :: ·) (fun _ _ => .behind) _ _ _ hrun
        refine ⟨hpast.trans hpast', fun hlimit s' hs => ?_⟩
        obtain ⟨⟨v', flow'⟩, s₁', hgroup', hkeeps⟩ :=
          hfirst (hpast'.fetched.trans hlimit) s' hs
        rcases hkeeps with ⟨heq, hlevel⟩ | ⟨hpasses, hstop, hcut⟩
        · cases heq
          obtain ⟨y, t', hy, hkeeps⟩ := hlater hlimit s₁' hlevel
          exact ⟨y, t', (bind_of_ok hgroup').trans hy, hkeeps⟩
        · -- The longer pass has the rest of the record behind the structure.
          cases hstop
          obtain ⟨⟨more, flow⟩, s₂, -, hrun⟩ := bind_eq_ok.mp hrun
          cases hrun
          exact ⟨_, s₁', bind_of_ok hgroup',
            .inr ⟨hpasses.past hpast', rfl, .under (f := .new head.info v) hcut⟩⟩
    · obtain ⟨⟨v, flow₁⟩, s₁, -, hrun⟩ := bind_eq_ok.mp hrun
      cases flow₁ with
      | stop =>
        cases hrun
        exact List.cons_ne_nil _ _
      | goOn =>
        obtain ⟨⟨more, flow⟩, s₂, -, hrun⟩ := bind_eq_ok.mp hrun
        cases hrun
        exact List.cons_ne_nil _ more

end RecordLayout.Decode
