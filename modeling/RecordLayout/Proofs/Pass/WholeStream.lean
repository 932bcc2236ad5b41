import RecordLayout.Proofs.Bits.Progress
import RecordLayout.Proofs.Layout.Shape
import RecordLayout.Proofs.Pass.Parts
import RecordLayout.Proofs.Pass.ReadComplete
import RecordLayout.Proofs.Pass.ReadSound

/-!
# Reading up to the end of the stream

Nothing follows an unbounded array, so a pass over a layout that has one ends where the array does:
where no further element can begin and only the padding of the last byte is ahead. A lenient pass
that stops before has no bit ahead at all. Custom types are no exception, since they go forward
only.
-/

namespace RecordLayout.Decode

variable {α : Type} {start : Reader} {ctx : PassContext} {head : Header}

/-- The pass has come from the other reader by taking bits. -/
abbrev Goes (start : Reader) (s : PassState Reader) : Prop := Reader.From start s.stream

/-- Only the padding of the last byte is ahead. -/
def Spent (ctx : PassContext) (s : PassState Reader) : Prop :=
  Padding (s.stream.ahead ctx.options.bitOrder)

theorem spent_of_remaining {s : PassState Reader} (h : s.stream.remaining = 0) : Spent ctx s := by
  have hahead : s.stream.ahead ctx.options.bitOrder = [] :=
    List.length_eq_zero_iff.mp (by rw [Reader.length_ahead, h])
  rw [Spent, hahead]
  exact ⟨Nat.succ_pos 7, nofun⟩

theorem goes_onStream {m : ReadM α} (h : Keeps (Reader.From start) m) :
    Keeps (Goes start) (PassM.onStream m) := by
  intro s x s' hs hrun
  obtain ⟨stream, hm, rfl⟩ := PassM.onStream_eq_ok.mp hrun
  exact h _ _ _ hs hm

theorem goes_register (info : Option FieldInfo) (v : Value) :
    Keeps (Goes start) (PassM.register info v) := by
  unfold PassM.register
  split
  · exact Keeps.modify fun _ h => h
  · exact Keeps.pure _

theorem forward_look {least : Nat} :
    Keeps (Goes start) (PassM.onStream (Reader.atEndFor least ctx.options.bitOrder)) :=
  goes_onStream (Reader.keeps_from fun _ _ _ hr h => ⟨_, (Reader.atEndFor_eq_ok hr h).1.toConsumes⟩)

/-- Elements up to the end of the stream, by induction over the rounds. -/
theorem forward_toEnd {element : PassM Reader (Step α)} (h : Keeps (Goes start) element) (least : Nat)
    (idle : Error) : Keeps (Goes start) (toEnd least ctx.options.bitOrder idle element) := by
  rintro s ⟨xs, flow⟩ s' hs hrun
  have key := toEnd_induction element (P := fun s _ _ s' => Goes start s → Goes start s')
    (fun s s' hend hs => forward_look _ _ _ hs hend)
    (fun s s₁ x s' hmore hx hs => h _ _ _ (forward_look _ _ _ hs hmore) hx)
    (fun s s₁ x s₂ xs flow s' hmore hx _ hrest hs =>
      hrest (h _ _ _ (forward_look _ _ _ hs hmore) hx))
    hrun
  exact key hs

/-- A pass goes forward only, whether its source ends or fails, and what it asks the resolver moves
nothing. -/
theorem forward_parts : Parts ctx True fun m => Keeps (Goes start) m where
  pure := .pure
  throw := .throw
  bind_of_ok := .bind_of_ok
  eval e := by
    intro s a s' hs hrun
    obtain ⟨-, questions, rfl⟩ := (PassM.computes_eval ctx s e).eq_ok hrun
    exact hs
  register := goes_register
  number _ _ := goes_onStream (Reader.keeps_from fun _ _ _ hr h =>
    ⟨_, (Reader.readNumber_eq_ok hr h).1.toConsumes⟩)
  bits _ := goes_onStream (Reader.keeps_from fun _ _ _ hr h =>
    ⟨_, (Reader.readBits_eq_ok hr h).1.toConsumes⟩)
  text := goes_onStream (Reader.keeps_from fun _ _ _ hr h =>
    ⟨_, (Reader.readText_eq_ok hr h).1.toConsumes⟩)
  byte := goes_onStream (Reader.keeps_from fun _ _ _ hr h =>
    ⟨_, (Reader.readByte_eq_ok hr h).1.toConsumes⟩)
  bytes _ := goes_onStream (Reader.keeps_from fun _ _ _ hr h =>
    ⟨_, (Reader.readBytes_eq_ok hr h).1.toConsumes⟩)
  align _ := goes_onStream (Reader.keeps_from fun _ _ _ hr h =>
    ⟨_, (Reader.align_eq_ok hr h).toConsumes⟩)
  skip _ := goes_onStream (Reader.keeps_from fun _ _ _ hr h =>
    ⟨_, (Reader.skipBytes_eq_ok hr h).toConsumes⟩)
  reset := goes_onStream (Reader.keeps_from fun r _ _ hr h => by
    obtain ⟨r', hreset, hconsumes, -⟩ := Reader.reset_apply hr
    cases h.symm.trans hreset
    exact ⟨_, hconsumes⟩)
  isExhausted _ := goes_onStream Reader.from_isExhausted.keeps
  toEnd _ _ _ helement least idle := forward_toEnd helement least idle

theorem forward_custom (use : CustomUse) : CustomPart ctx (fun m => Keeps (Goes start) m) use :=
  fun _ => goes_onStream (Reader.from_run _ _).keeps

/-! ## Repetitions -/

variable (hends : start.source.failure = none)
include hends

/-- Where no element can begin, only padding is left. -/
theorem look_of_goes {least : Nat} {atEnd : Bool} {s s' : PassState Reader} (hs : Goes start s)
    (h : PassM.onStream (Reader.atEndFor least ctx.options.bitOrder) s = .ok atEnd s') :
    Goes start s' ∧ (atEnd = true → Spent ctx s') := by
  obtain ⟨r, hat, rfl⟩ := PassM.onStream_eq_ok.mp h
  obtain ⟨r', htakes, hat'⟩ := Reader.atEndFor_of_ends hs.sound (hs.failure.trans hends) least
    ctx.options.bitOrder
  have hahead : r'.ahead ctx.options.bitOrder = s.stream.ahead ctx.options.bitOrder :=
    htakes.ahead _
  rw [hat] at hat'
  split at hat'
  · cases hat'
    exact ⟨hs.takes htakes, nofun⟩
  · rename_i hshort
    split at hat'
    · rename_i hzeros
      cases hat'
      refine ⟨hs.takes htakes, fun _ => ?_⟩
      rw [Spent, hahead]
      refine ⟨?_, fun b hb => ?_⟩
      · rw [Reader.length_ahead]
        omega
      · rw [hzeros] at hb
        exact List.eq_of_mem_replicate hb
    · cases hat'

/-- Behind an element the pass has gone on, and behind one that ends the record nothing is left. -/
def Continues (start : Reader) (ctx : PassContext) (element : PassM Reader (Step α)) : Prop :=
  ∀ s step s', Goes start s → element s = .ok step s' →
    Goes start s' ∧ ∀ x, step = .last x → Spent ctx s'

omit hends in
/-- An element that always goes on continues if it goes forward. -/
theorem continues_next {m : PassM Reader α} (h : Keeps (Goes start) m) :
    Continues start ctx (.next <$> m) := by
  intro s step s' hs hrun
  obtain ⟨x, hx, rfl⟩ := map_eq_ok.mp hrun
  exact ⟨h _ _ _ hs hx, fun _ h => nomatch h⟩

omit hends in
/-- A number of elements stops early only where nothing is left. -/
theorem times_spent {element : PassM Reader (Step α)} (h : Continues start ctx element)
    {count : Nat} {s s' : PassState Reader} {xs : List α} {flow : Flow} (hs : Goes start s)
    (hrun : times element count s = .ok (xs, flow) s') :
    Goes start s' ∧ (flow = .stop → Spent ctx s') := by
  have key := times_induction element
    (Q := fun _ s _ flow s' => Goes start s → Goes start s' ∧ (flow = .stop → Spent ctx s'))
    (fun s hs => ⟨hs, nofun⟩)
    (fun n s x s' hx hs => by
      obtain ⟨hs', hlast⟩ := h _ _ _ hs hx
      exact ⟨hs', fun _ => hlast x rfl⟩)
    (fun n s x s₁ xs flow s' hx hrest hs => hrest (h _ _ _ hs hx).1)
    hrun
  exact key hs

/-- Elements up to the end of the stream leave nothing. -/
theorem toEnd_spent {element : PassM Reader (Step α)} (h : Continues start ctx element)
    {least : Nat} {idle : Error} {s s' : PassState Reader} {xs : List α} {flow : Flow}
    (hs : Goes start s)
    (hrun : toEnd least ctx.options.bitOrder idle element s = .ok (xs, flow) s') :
    Goes start s' ∧ Spent ctx s' := by
  have key := toEnd_induction element
    (P := fun s _ _ s' => Goes start s → Goes start s' ∧ Spent ctx s')
    (fun s s' hend hs => by
      obtain ⟨hs', hspent⟩ := look_of_goes hends hs hend
      exact ⟨hs', hspent rfl⟩)
    (fun s s₁ x s' hmore hx hs => by
      obtain ⟨hs', hlast⟩ := h _ _ _ (forward_look _ _ _ hs hmore) hx
      exact ⟨hs', hlast x rfl⟩)
    (fun s s₁ x s₂ xs flow s' hmore hx _ hrest hs =>
      hrest (h _ _ _ (forward_look _ _ _ hs hmore) hx).1)
    hrun
  exact key hs

theorem elements_spent {element : PassM Reader (Step α)} (h : Continues start ctx element)
    {least : Nat} {idle : Error} {count : Option Nat} {s s' : PassState Reader} {xs : List α}
    {flow : Flow} (hs : Goes start s)
    (hrun : elements ctx least idle element count s = .ok (xs, flow) s') :
    Goes start s' ∧ (flow = .stop ∨ count = none → Spent ctx s') := by
  cases count with
  | some n =>
    obtain ⟨hs', hspent⟩ := times_spent h hs hrun
    exact ⟨hs', fun hlast => hspent (hlast.resolve_right nofun)⟩
  | none =>
    obtain ⟨hs', hspent⟩ := toEnd_spent hends h hs hrun
    exact ⟨hs', fun _ => hspent⟩

/-! ## Declarations -/

/-- An array of bytes without a number of them leaves nothing but padding. -/
theorem byteArray_spent {type : ElementType} {count : Option Nat} {s s' : PassState Reader}
    {bs : List UInt8} (hs : Goes start s) (hrun : byteArray ctx type count s = .ok bs s') :
    Goes start s' ∧ (count = none → Spent ctx s') := by
  cases count with
  | some n =>
    exact ⟨forward_parts.bytes n _ _ _ hs hrun, nofun⟩
  | none =>
    obtain ⟨⟨found, flow⟩, hfound, -⟩ := map_eq_ok.mp hrun
    obtain ⟨hs', hspent⟩ := toEnd_spent hends (continues_next forward_parts.byte) hs hfound
    exact ⟨hs', fun _ => hspent⟩

/-- An unbounded array leaves nothing but padding. -/
theorem value_spent {type : ElementType} {length : Option Length} {s s' : PassState Reader}
    {v : Value} (hs : Goes start s) (hrun : value ctx head type length s = .ok v s') :
    Goes start s' ∧ (length = some .unbounded → Spent ctx s') := by
  obtain ⟨width, s₁, hwidth, hrun⟩ := bind_eq_ok.mp hrun
  replace hs : Goes start s₁ := forward_parts.bitWidth type _ _ _ hs hwidth
  have helement : Keeps (Goes start) (element ctx head width type) :=
    forward_parts.element width fun use _ _ => forward_custom use
  cases length with
  | none => exact ⟨helement _ _ _ hs hrun, nofun⟩
  | some length =>
    obtain ⟨count, s₂, hcount, hrun⟩ := bind_eq_ok.mp hrun
    replace hs : Goes start s₂ := forward_parts.arrayCount length _ _ _ hs hcount
    have hnone : some length = some .unbounded → count = none := by
      rintro ⟨⟩
      cases hcount
      rfl
    split at hrun
    · obtain ⟨bs, hbytes, -⟩ := map_eq_ok.mp hrun
      obtain ⟨hs', hspent⟩ := byteArray_spent hends hs hbytes
      exact ⟨hs', fun h => hspent (hnone h)⟩
    · obtain ⟨⟨items, flow⟩, s₃, hitems, hrun⟩ := bind_eq_ok.mp hrun
      cases hrun
      obtain ⟨hs', hspent⟩ :=
        elements_spent hends (continues_next helement) hs hitems
      exact ⟨hs', fun h => hspent (.inr (hnone h))⟩

/-- A declaration leaves nothing but padding if it is unbounded. -/
theorem item_spent {decl : Decl} {s s' : PassState Reader} {node : Option Field}
    (hs : Goes start s) (hrun : item ctx head decl s = .ok node s') :
    Goes start s' ∧ (decl.length = some .unbounded → Spent ctx s') := by
  have hitem : Keeps (Goes start) (item ctx head decl) :=
    forward_parts.item (fun use _ => forward_custom use) fun _ => trivial
  refine ⟨hitem _ _ _ hs hrun, fun hunbounded => ?_⟩
  cases decl with
  | value type length =>
    obtain rfl : length = some .unbounded := hunbounded
    obtain ⟨v, s₁, hv, hrun⟩ := bind_eq_ok.mp hrun
    cases hrun
    exact (value_spent hends hs hv).2 rfl
  | computed | align | skip | reset => cases hunbounded

/-- Where a lenient pass stops, nothing is left. -/
theorem endsBefore_spent {holds ends : Bool} {s s' : PassState Reader} (hs : Goes start s)
    (h : endsBefore ctx holds s = .ok ends s') :
    Goes start s' ∧ (ends = true → Spent ctx s') := by
  unfold endsBefore at h
  split at h
  · obtain ⟨r, hexhausted, rfl⟩ := PassM.onStream_eq_ok.mp h
    obtain ⟨r', hexhausted', htakes⟩ :=
      Reader.isExhausted_of_ends hs.sound (hs.failure.trans hends)
    cases hexhausted.symm.trans hexhausted'
    refine ⟨hs.takes htakes, fun hzero => spent_of_remaining ?_⟩
    have hremaining := htakes.remaining
    have := of_decide_eq_true hzero
    show r.remaining = 0
    omega
  · cases h
    exact ⟨hs, nofun⟩

/-! ## Layouts -/

/-- The operation goes on, and where it ends the record or has met an unbounded array, nothing is
left. -/
def Accounts (start : Reader) (ctx : PassContext) (endless : Bool) (m : PassM Reader (α × Flow)) :
    Prop :=
  ∀ s x flow s', Goes start s → m s = .ok (x, flow) s' →
    Goes start s' ∧ (flow = .stop ∨ endless = true → Spent ctx s')

theorem accounts_group {body : PassM Reader (List Field × Flow)} {endless : Bool}
    (hbody : Accounts start ctx endless body) {length : Option Length}
    (honce : length.isSome = true → endless = false) (certain : Nat) :
    Accounts start ctx (length == some .unbounded || endless)
      (group ctx head length certain body) := by
  intro s v flow s' hs hrun
  cases length with
  | none =>
    obtain ⟨⟨found, flow'⟩, s₁, hfound, hrun⟩ := bind_eq_ok.mp hrun
    cases hrun
    exact hbody _ _ _ _ hs hfound
  | some length =>
    obtain ⟨count, s₁, hcount, hrun⟩ := bind_eq_ok.mp hrun
    replace hs : Goes start s₁ := forward_parts.arrayCount length _ _ _ hs hcount
    obtain ⟨⟨items, flow'⟩, s₂, hitems, hrun⟩ := bind_eq_ok.mp hrun
    cases hrun
    have hstep : Continues start ctx (Step.ofBody <$> body) := by
      intro s step s' hs h
      obtain ⟨⟨found, flow⟩, hfound, rfl⟩ := map_eq_ok.mp h
      obtain ⟨hs', hspent⟩ := hbody _ _ _ _ hs hfound
      refine ⟨hs', fun x hx => hspent (.inl ?_)⟩
      cases flow with
      | goOn => cases hx
      | stop => rfl
    obtain ⟨hs', hspent⟩ := elements_spent hends hstep hs hitems
    refine ⟨hs', fun h => hspent (h.imp_right fun h => ?_)⟩
    rw [honce rfl, Bool.or_false, beq_iff_eq] at h
    cases h
    cases hcount
    rfl

/-- A pass over a layout whose unbounded array nothing follows. -/
theorem accounts_fields {l : Layout} (hterminal : l.Terminal) :
    Accounts start ctx l.endless (fields ctx l) := by
  induction l with
  | done =>
    intro s found flow s' hs hrun
    cases hrun
    exact ⟨hs, fun h => by rcases h with ⟨⟨⟩⟩ | ⟨⟨⟩⟩⟩
  | item head decl rest ih =>
    intro s found flow s' hs hrun
    obtain ⟨ends, s₁, hends', hrun⟩ := bind_eq_ok.mp hrun
    obtain ⟨hs₁, hspent⟩ := endsBefore_spent hends hs hends'
    cases ends with
    | true =>
      cases hrun
      exact ⟨hs₁, fun _ => hspent rfl⟩
    | false =>
      obtain ⟨node, s₂, hitem, hrun⟩ := bind_eq_ok.mp hrun
      obtain ⟨⟨more, flow'⟩, s₃, hrest, hrun⟩ := bind_eq_ok.mp hrun
      cases hrun
      obtain ⟨hs₂, hspent₂⟩ := item_spent hends hs₁ hitem
      obtain ⟨hs₃, hspent₃⟩ := ih hterminal.2 _ _ _ _ hs₂ hrest
      refine ⟨hs₃, fun h => ?_⟩
      rw [Layout.endless, Bool.or_eq_true, beq_iff_eq, ← or_assoc, or_right_comm] at h
      rcases h with h | hunbounded
      · exact hspent₃ h
      -- Nothing follows an unbounded array, so the rest of the pass is over at once.
      · obtain rfl := hterminal.1 hunbounded
        cases hrest
        exact hspent₂ hunbounded
  | group head length body closing rest ihbody ihrest =>
    intro s found flow s' hs hrun
    obtain ⟨hlast, honce, hbodyTerminal, hrestTerminal⟩ := hterminal
    obtain ⟨ends, s₁, hends', hrun⟩ := bind_eq_ok.mp hrun
    obtain ⟨hs₁, hspent⟩ := endsBefore_spent hends hs hends'
    cases ends with
    | true =>
      cases hrun
      exact ⟨hs₁, fun _ => hspent rfl⟩
    | false =>
      obtain ⟨⟨v, flow₁⟩, s₂, hgroup, hrun⟩ := bind_eq_ok.mp hrun
      obtain ⟨hs₂, hspent₂⟩ :=
        accounts_group hends (ihbody hbodyTerminal) honce _ _ _ _ _ hs₁ hgroup
      cases flow₁ with
      | stop =>
        cases hrun
        exact ⟨hs₂, fun _ => hspent₂ (.inl rfl)⟩
      | goOn =>
        obtain ⟨⟨more, flow'⟩, s₃, hrest, hrun⟩ := bind_eq_ok.mp hrun
        cases hrun
        obtain ⟨hs₃, hspent₃⟩ := ihrest hrestTerminal _ _ _ _ hs₂ hrest
        refine ⟨hs₃, fun h => ?_⟩
        rw [Layout.endless, Bool.or_eq_true (_ || _), ← or_assoc, or_right_comm] at h
        rcases h with h | hendless
        · exact hspent₃ h
        · obtain rfl := hlast (by simpa using hendless)
          cases hrest
          exact hspent₂ (.inr hendless)

end RecordLayout.Decode
