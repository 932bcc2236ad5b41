import RecordLayout.Proofs.Layout.Record
import RecordLayout.Proofs.Pass.ReadSound

/-!
# Every record in front is read

If the bits in front are those of a record of the layout, a strict read pass gives the fields of
this record. An unbounded array ends where the record does: what stands behind it is shorter than
any of its elements, and zero.
-/

namespace RecordLayout.Decode

/-- What fills up the last byte behind a record. -/
structure Padding (bits : List Bool) : Prop where
  short : bits.length < 8
  zeros : ∀ b ∈ bits, b = false

variable {ctx : PassContext} {head : Header} {type : ElementType} {w : Nat} {p p' : Place}
  {s s₁ s' : PassState Reader} {bits rest : List Bool} {pieces : List Piece}

theorem ReadsOnly.rest_eq (h : ReadsOnly ctx bits s s')
    (hfront : s.stream.ahead ctx.options.bitOrder = bits ++ rest) :
    s'.stream.ahead ctx.options.bitOrder = rest := by
  obtain ⟨r, rfl, hr⟩ := h
  exact hr.toConsumes.rest_eq hfront

/-- An operation of the stream that takes the bits in front reads these. -/
theorem readsOnly_of_takes {n : Nat} {r : Reader} (htakes : Reader.Takes n s.stream r)
    (hlength : bits.length = n) (hfront : s.stream.ahead ctx.options.bitOrder = bits ++ rest) :
    ReadsOnly ctx bits s { s with stream := r } := by
  subst hlength
  exact ⟨r, rfl, htakes.reads_of_front hfront⟩

theorem Advances.rest_eq (h : Advances ctx bits s s')
    (hfront : s.stream.ahead ctx.options.bitOrder = bits ++ rest) :
    s'.stream.ahead ctx.options.bitOrder = rest :=
  h.consumes.rest_eq hfront

theorem length_le_remaining (h : s.stream.ahead ctx.options.bitOrder = bits ++ rest) :
    bits.length ≤ s.stream.remaining := by
  rw [← Reader.length_ahead ctx.options.bitOrder, h, List.length_append]
  exact Nat.le_add_right _ _

/-! ## Values -/

/-- Bits that spell a value are read as the value. -/
theorem element_of_front (head : Header) {env : Expr.Env} {v : Value} (hs : s.stream.Sound)
    (hwidth : type.width env = .ok w) (hfits : type.Fits w v)
    (hfront : s.stream.ahead ctx.options.bitOrder = type.spell head.order w v ++ rest) :
    ∃ s', element ctx head w type s = .ok v s' ∧
      ReadsOnly ctx (type.spell head.order w v) s s' := by
  cases type with
  | fixed type =>
    obtain ⟨hnumber, hlt⟩ := hfits
    obtain ⟨r, hread, htakes⟩ := Reader.readNumber_of_ahead hs hlt hfront
    refine ⟨_, ?_, readsOnly_of_takes htakes ?_ hfront⟩
    · refine (bind_of_ok (PassM.onStream_of_ok hread)).trans ?_
      rw [hnumber]
      rfl
    · simp [ElementType.spell]
  | bit a =>
    obtain ⟨hpos, hle⟩ := ElementType.width_bit hwidth
    obtain ⟨-, x, rfl, hx⟩ := hfits
    obtain ⟨r, hread, htakes⟩ := Reader.readBits_of_ahead hs hpos (by omega) hx hfront
    refine ⟨_, ?_, readsOnly_of_takes htakes ?_ hfront⟩
    · refine (bind_of_ok (PassM.onStream_of_ok hread)).trans ?_
      simp [pure_apply]
    · simp [ElementType.spell]
  | text =>
    obtain ⟨t, rfl, ht⟩ := hfits
    obtain ⟨r, hread, htakes⟩ := Reader.readText_of_ahead hs ht hfront
    refine ⟨_, map_of_ok (PassM.onStream_of_ok hread), readsOnly_of_takes htakes ?_ hfront⟩
    simp [ElementType.spell, Value.asText]
  | custom use extra => exact hfits.elim

/-! ## Repetitions -/

section

variable {α : Type} {least : Nat} (idle : Error) (step : PassM Reader (Step α))

/-- A repetition ends before the padding. -/
theorem toEnd_of_padding (hs : s.stream.Sound) (hends : s.stream.source.failure = none)
    (hleast : 8 ≤ least) (hpadding : Padding (s.stream.ahead ctx.options.bitOrder)) :
    ∃ s', toEnd least ctx.options.bitOrder idle step s = .ok ([], .goOn) s' ∧
      ReadsOnly ctx [] s s' := by
  obtain ⟨r, htakes, hat⟩ := Reader.atEndFor_of_ends hs hends least ctx.options.bitOrder
  have hshort := hpadding.short
  have hzeros := List.eq_replicate_of_mem hpadding.zeros
  rw [Reader.length_ahead] at hshort hzeros
  rw [if_neg (by omega), if_pos hzeros] at hat
  refine ⟨_, ?_, readsOnly_of_takes htakes rfl (List.nil_append _).symm⟩
  rw [toEnd, PassM.onStream_of_ok hat]

/-- A repetition goes on before an element. Looking for the end reads nothing of it. -/
theorem toEnd_of_front (hs : s.stream.Sound) (hends : s.stream.source.failure = none)
    (hleast : least ≤ bits.length)
    (hfront : s.stream.ahead ctx.options.bitOrder = bits ++ rest) :
    ∃ s₁, ReadsOnly ctx [] s s₁ ∧ ∀ {x : α} {s₂ xs flow s'}, step s₁ = .ok (.next x) s₂ →
      s₂.stream.remaining < s.stream.remaining →
      toEnd least ctx.options.bitOrder idle step s₂ = .ok (xs, flow) s' →
      toEnd least ctx.options.bitOrder idle step s = .ok (x :: xs, flow) s' := by
  obtain ⟨r, htakes, hat⟩ := Reader.atEndFor_of_ends hs hends least ctx.options.bitOrder
  have henough := length_le_remaining hfront
  rw [if_pos (Or.inr (by omega))] at hat
  refine ⟨_, readsOnly_of_takes htakes rfl (List.nil_append _).symm, ?_⟩
  intro x s₂ xs flow s' hstep hless hmore
  rw [toEnd, PassM.onStream_of_ok hat]
  simp only [hstep, hless, if_true, hmore]

end

/-- Values in a row are read, for what the reading of one says. -/
theorem elements_of_front {α : Type} {one : PassM Reader α} {spell : α → List Bool} {xs : List α}
    {least : Nat} (idle : Error) {count : Option Nat}
    (hone : ∀ x ∈ xs, ∀ {s rest}, s.stream.Sound →
      s.stream.ahead ctx.options.bitOrder = spell x ++ rest →
      ∃ s', one s = .ok x s' ∧ ReadsOnly ctx (spell x) s s')
    (hcount : ∀ n, count = some n → xs.length = n)
    (hleast : count = none → 8 ≤ least ∧ (∀ x ∈ xs, least ≤ (spell x).length) ∧ Padding rest)
    (hs : s.stream.Sound) (hends : s.stream.source.failure = none)
    (hfront : s.stream.ahead ctx.options.bitOrder = xs.flatMap spell ++ rest) :
    ∃ s', elements ctx least idle (.next <$> one) count s = .ok (xs, .goOn) s' ∧
      ReadsOnly ctx (xs.flatMap spell) s s' := by
  cases count with
  | some n =>
    obtain rfl := hcount n rfl
    clear hcount hleast
    show ∃ s', times (.next <$> one) xs.length s = .ok (xs, .goOn) s' ∧ _
    induction xs generalizing s with
    | nil => exact ⟨s, rfl, ReadsOnly.refl hs⟩
    | cons x xs ih =>
      rw [List.flatMap_cons, List.append_assoc] at hfront
      obtain ⟨s₁, hx, hreads⟩ := hone x List.mem_cons_self hs hfront
      obtain ⟨s₂, hxs, hreads'⟩ := ih (fun y hy => hone y (List.mem_cons_of_mem x hy)) hreads.sound
        (hreads.ends hends) (hreads.rest_eq hfront)
      refine ⟨s₂, ?_, ?_⟩
      · rw [List.length_cons, times, bind_of_ok (map_of_ok hx)]
        exact (bind_of_ok hxs).trans rfl
      · rw [List.flatMap_cons]
        exact hreads.trans hreads'
  | none =>
    obtain ⟨hwide, hlong, hpadding⟩ := hleast rfl
    clear hcount hleast
    show ∃ s', toEnd least ctx.options.bitOrder idle (.next <$> one) s = .ok (xs, .goOn) s' ∧ _
    -- Without a count the loop looks for the end in front of each element and behind the last.
    induction xs generalizing s with
    | nil => exact toEnd_of_padding idle (Step.next <$> one) hs hends hwide (hfront ▸ hpadding)
    | cons x xs ih =>
      rw [List.flatMap_cons, List.append_assoc] at hfront
      obtain ⟨s₁, hlook, hstep⟩ := toEnd_of_front idle (Step.next <$> one) hs hends
        (hlong x List.mem_cons_self) hfront
      obtain ⟨s₂, hx, hreads⟩ := hone x List.mem_cons_self hlook.sound (hlook.rest_eq hfront)
      have hreads := hlook.trans hreads
      obtain ⟨s₃, hxs, hreads'⟩ := ih (fun y hy => hone y (List.mem_cons_of_mem x hy)) hreads.sound
        (hreads.ends hends) (hreads.rest_eq hfront) fun y hy => hlong y (List.mem_cons_of_mem x hy)
      refine ⟨s₃, hstep (map_of_ok hx) ?_ hxs, ?_⟩
      · obtain ⟨r, rfl, hr⟩ := hreads
        have hremaining := hr.remaining
        have := hlong x List.mem_cons_self
        rw [List.nil_append] at hremaining
        show r.remaining < s.stream.remaining
        omega
      · rw [List.flatMap_cons]
        exact hreads.trans hreads'

/-- Bytes ahead are read as the array of them; without a number of them, up to the padding. -/
theorem byteArray_of_front (type : ElementType) {count : Option Nat} {bs : List UInt8}
    (hcount : ∀ n, count = some n → bs.length = n) (hpadding : count = none → Padding rest)
    (hs : s.stream.Sound) (hends : s.stream.source.failure = none)
    (hfront : s.stream.ahead ctx.options.bitOrder = Bits.ofBytes bs ++ rest) :
    ∃ s', byteArray ctx type count s = .ok bs s' ∧ ReadsOnly ctx (Bits.ofBytes bs) s s' := by
  cases count with
  | some n =>
    obtain rfl := hcount n rfl
    obtain ⟨r, hread, htakes⟩ := Reader.readBytes_of_ahead hs hfront
    exact ⟨_, PassM.onStream_of_ok hread, readsOnly_of_takes htakes (Bits.length_ofBytes bs) hfront⟩
  | none =>
    have hone : ∀ b ∈ bs, ∀ {s rest}, s.stream.Sound →
        s.stream.ahead ctx.options.bitOrder = Bits.ofNat b.toNat 8 ++ rest →
        ∃ s', PassM.onStream (Reader.readByte ctx.options.bitOrder) s = .ok b s' ∧
          ReadsOnly ctx (Bits.ofNat b.toNat 8) s s' := by
      intro b _ s rest hs hfront
      obtain ⟨r, hread, htakes⟩ := Reader.readByte_of_ahead hs hfront
      exact ⟨_, PassM.onStream_of_ok hread,
        readsOnly_of_takes htakes (Bits.length_ofNat _ 8) hfront⟩
    have hleast : (none : Option Nat) = none →
        8 ≤ 8 ∧ (∀ b ∈ bs, 8 ≤ (Bits.ofNat b.toNat 8).length) ∧ Padding rest :=
      fun _ => ⟨Nat.le_refl 8, fun b _ => Nat.le_of_eq (Bits.length_ofNat _ 8).symm, hpadding rfl⟩
    obtain ⟨s', hread, hreads⟩ :=
      elements_of_front (.idleElement type.name) hone hcount hleast hs hends hfront
    exact ⟨s', map_of_ok hread, hreads⟩

/-- A value in front is read. -/
theorem value_of_front (length : Option Length) {v : Value} (hat : At p s)
    (hwidth : type.width (p.env ctx) = .ok w)
    (hfits : (Slot.mk head.order type w length.isSome).Fits v)
    (hcount : ∀ l, length = some l → ∃ count, ctx.count (p.env ctx) l = .ok count ∧
      (∀ n, count = some n → v.length? = some n) ∧
      (count = none → 8 ≤ type.leastBits w ∧ Padding rest))
    (hfront : s.stream.ahead ctx.options.bitOrder =
      (Slot.mk head.order type w length.isSome).spell v ++ rest) :
    ∃ s' questions, value ctx head type length s = .ok v s' ∧
      ReadsOnly ctx ((Slot.mk head.order type w length.isSome).spell v)
        { s with asked := questions } s' := by
  obtain ⟨first, hw⟩ := (PassM.computes_bitWidth ctx s type).of_ok (by rw [hat.env, hwidth])
  have hat₁ := hat.asking (s.asked ++ first)
  cases length with
  | none =>
    obtain ⟨s', hread, hreads⟩ := element_of_front head hat₁.sound hwidth hfits hfront
    exact ⟨s', s.asked ++ first, (bind_of_ok hw).trans hread, hreads⟩
  | some l =>
    obtain ⟨count, hcount, hlong, hend⟩ := hcount l rfl
    obtain ⟨second, hc⟩ := (PassM.computes_arrayCount ctx
      { s with asked := s.asked ++ first } l).of_ok (by rw [hat₁.env, hcount])
    have hat₂ := hat₁.asking (s.asked ++ first ++ second)
    cases hbyte : type.isByte with
    | true =>
      -- The bytes of an array are one value, not an element each.
      simp only [Slot.Fits, Option.isSome_some, hbyte] at hfits
      obtain ⟨bs, rfl⟩ := hfits
      obtain ⟨s', hread, hreads⟩ := byteArray_of_front type
        (fun n hn => Option.some.inj (hlong n hn)) (fun hn => (hend hn).2) hat₂.sound hat₂.ends
        hfront
      refine ⟨s', s.asked ++ first ++ second, ?_, hreads⟩
      refine (bind_of_ok hw).trans ((bind_of_ok hc).trans ?_)
      rw [if_pos hbyte]
      exact map_of_ok hread
    | false =>
      simp only [Slot.Fits, Option.isSome_some, hbyte] at hfits
      obtain ⟨items, rfl, hall⟩ := hfits
      have hone : ∀ x ∈ items, ∀ {s rest}, s.stream.Sound →
          s.stream.ahead ctx.options.bitOrder = type.spell head.order w x ++ rest →
          ∃ s', element ctx head w type s = .ok x s' ∧
            ReadsOnly ctx (type.spell head.order w x) s s' :=
        fun x hx s rest hs hfront => element_of_front head hs hwidth (hall x hx) hfront
      have hleast : count = none → 8 ≤ type.leastBits w ∧
          (∀ x ∈ items, type.leastBits w ≤ (type.spell head.order w x).length) ∧ Padding rest :=
        fun hn => ⟨(hend hn).1,
          fun x hx => ElementType.leastBits_le_spell head.order (hall x hx), (hend hn).2⟩
      obtain ⟨s', hread, hreads⟩ := elements_of_front (.idleElement type.name) hone
        (fun n hn => Option.some.inj (hlong n hn)) hleast hat₂.sound hat₂.ends hfront
      refine ⟨s', s.asked ++ first ++ second, ?_, hreads⟩
      refine (bind_of_ok hw).trans ((bind_of_ok hc).trans ?_)
      rw [if_neg (by rw [hbyte]; exact Bool.false_ne_true)]
      exact (bind_of_ok hread).trans rfl

/-! ## Declarations -/

/-- Pieces that spell a declaration are read as its node. -/
theorem item_of_front {decl : Decl} {node : Option Field}
    (h : decl.Spells ctx head p node pieces p') (hroomy : Roomy pieces)
    (hpadding : decl.length = some .unbounded → Padding rest) (hat : At p s)
    (hfront : s.stream.ahead ctx.options.bitOrder = pieces.flatMap Piece.bits ++ rest) :
    ∃ s', item ctx head decl s = .ok node s' ∧
      Advances ctx (pieces.flatMap Piece.bits) s s' ∧ At p' s' := by
  cases h with
  | @single type w v _ hwidth hfits =>
    rw [List.flatMap_singleton] at hfront ⊢
    obtain ⟨s₁, questions, hread, hreads⟩ := value_of_front none hat hwidth hfits
      (fun l hl => by cases hl) hfront
    obtain ⟨hat₁, hadvances⟩ := hreads.advances hat
    obtain ⟨s₂, hregister, hat₂, hstream⟩ := hat₁.register head.info v
    refine ⟨s₂, ?_, hadvances.of_stream_eq rfl hstream.symm, hat₂⟩
    exact (bind_of_ok hread).trans ((bind_of_ok hregister).trans rfl)
  | @counted type length w n v _ hwidth hcount hlong hfits =>
    rw [List.flatMap_singleton] at hfront ⊢
    obtain ⟨s₁, questions, hread, hreads⟩ := value_of_front (some length) hat hwidth hfits
      (by
        rintro l ⟨⟩
        exact ⟨some n, hcount, by simpa using hlong, by simp⟩) hfront
    obtain ⟨hat₁, hadvances⟩ := hreads.advances hat
    exact ⟨s₁, (bind_of_ok hread).trans rfl, hadvances, hat₁⟩
  | @unbounded type length w v _ hwidth hcount hfits =>
    have hbits : [Piece.value ⟨head.order, type, w, true⟩ v,
        .ended (type.leastBits w)].flatMap Piece.bits =
          (Slot.mk head.order type w true).spell v := by
      simp [Piece.bits]
    -- The end of the array has no bits of its own: the loop finds it in the padding behind.
    rw [hbits] at hfront ⊢
    obtain ⟨s₁, questions, hread, hreads⟩ := value_of_front (some length) hat hwidth hfits
      (by
        rintro l ⟨⟩
        refine ⟨none, hcount, by simp, fun _ => ⟨hroomy _ (by simp), hpadding ?_⟩⟩
        rw [PassContext.eq_unbounded_of_count hcount]
        rfl) hfront
    obtain ⟨hat₁, hadvances⟩ := hreads.advances hat
    exact ⟨s₁, (bind_of_ok hread).trans rfl, hadvances, hat₁⟩
  | @computed amount n _ hvalue =>
    obtain ⟨questions, hn⟩ := (PassM.computes_amount ctx s amount).of_ok (by rw [hat.env, hvalue])
    obtain ⟨s₂, hregister, hat₂, hstream⟩ :=
      (hat.asking (s.asked ++ questions)).register head.info (.long n)
    refine ⟨s₂, ?_, (Advances.refl hat.sound).of_stream_eq rfl hstream.symm, hat₂⟩
    exact (bind_of_ok hn).trans ((bind_of_ok hregister).trans rfl)
  | @align a n bits _ hvalue hlong =>
    rw [List.flatMap_singleton] at hfront ⊢
    obtain ⟨questions, hn⟩ := (PassM.computes_alignment ctx s a).of_ok (by rw [hat.env, hvalue])
    rw [← hat.position] at hlong
    obtain ⟨r, halign, htakes⟩ :=
      Reader.align_of_le hat.sound (hlong ▸ length_le_remaining hfront)
    have hreads : ReadsOnly ctx bits { s with asked := s.asked ++ questions } _ :=
      readsOnly_of_takes htakes hlong hfront
    obtain ⟨hat₁, hadvances⟩ := hreads.advances hat
    refine ⟨_, ?_, hadvances, hat₁⟩
    have halign := PassM.onStream_of_ok (s := { s with asked := s.asked ++ questions }) halign
    exact (bind_of_ok hn).trans ((bind_of_ok halign).trans rfl)
  | @skip a n bits _ hvalue hlong =>
    rw [List.flatMap_singleton] at hfront ⊢
    obtain ⟨questions, hn⟩ := (PassM.computes_skipCount ctx s a).of_ok (by rw [hat.env, hvalue])
    obtain ⟨r, hskip, htakes⟩ :=
      Reader.skipBytes_of_le hat.sound (hlong ▸ length_le_remaining hfront)
    have hreads : ReadsOnly ctx bits { s with asked := s.asked ++ questions } _ :=
      readsOnly_of_takes htakes hlong hfront
    obtain ⟨hat₁, hadvances⟩ := hreads.advances hat
    refine ⟨_, ?_, hadvances, hat₁⟩
    have hskip := PassM.onStream_of_ok (s := { s with asked := s.asked ++ questions }) hskip
    exact (bind_of_ok hn).trans ((bind_of_ok hskip).trans rfl)
  | @reset bits _ hlong =>
    rw [List.flatMap_singleton] at hfront ⊢
    obtain ⟨r, hreset, hconsumes, hposition⟩ := Reader.reset_apply hat.sound
    rw [hat.position, ← hlong] at hconsumes
    -- A reset consumes bits and starts the place again, so `ReadsOnly` does not cover it.
    refine ⟨_, (bind_of_ok (PassM.onStream_of_ok hreset)).trans rfl, ⟨hconsumes, ?_⟩,
      ⟨hat.numbers, hposition, hconsumes.sound, hconsumes.failure.trans hat.ends⟩⟩
    rw [hfront, ← hconsumes.rest_eq hfront]

/-! ## Structures -/

/-- An operation gives the fields of what the relation says, if this is in front. -/
def Gives (ctx : PassContext) (m : PassM Reader (List Field × Flow)) (endless : Bool)
    (spells : Place → List Field → List Piece → Option Place → Prop) : Prop :=
  ∀ {p p' s fields pieces rest}, spells p fields pieces (some p') → Roomy pieces →
    (endless = true → Padding rest) → At p s →
    s.stream.ahead ctx.options.bitOrder = pieces.flatMap Piece.bits ++ rest →
    ∃ s', m s = .ok (fields, .goOn) s' ∧ Advances ctx (pieces.flatMap Piece.bits) s s' ∧ At p' s'

variable {body : PassM Reader (List Field × Flow)}
  {spells : Place → List Field → List Piece → Option Place → Prop}

/-- Pieces that spell elements are read as the elements, where an unbounded array ends in padding.
-/
theorem structs_of_front (hbody : Gives ctx body false spells) {values : List Value} {begun : Nat}
    {place : Option Place} {least : Nat} (idle : Error) (count : Option Nat)
    (h : Elements.Spells spells p values pieces begun place) (hplace : place = some p')
    (hroomy : Roomy pieces) (hcount : ∀ n, count = some n → values.length = n)
    (hleast : count = none → 8 ≤ least ∧
      (∀ p fields pieces p', spells p fields pieces (some p') →
        least ≤ (pieces.flatMap Piece.bits).length) ∧ Padding rest)
    (hat : At p s)
    (hfront : s.stream.ahead ctx.options.bitOrder = pieces.flatMap Piece.bits ++ rest) :
    ∃ s', elements ctx least idle (Step.ofBody <$> body) count s = .ok (values, .goOn) s' ∧
      Advances ctx (pieces.flatMap Piece.bits) s s' ∧ At p' s' := by
  induction h generalizing s count with
  | nil =>
    cases hplace
    cases count with
    | some n =>
      obtain rfl := hcount n rfl
      exact ⟨s, rfl, Advances.refl hat.sound, hat⟩
    | none =>
      obtain ⟨hwide, -, hpadding⟩ := hleast rfl
      -- The loop looks once more and finds padding.
      obtain ⟨s', hread, hreads⟩ :=
        toEnd_of_padding idle (Step.ofBody <$> body) hat.sound hat.ends hwide
          (by rw [hfront]; exact hpadding)
      obtain ⟨hat', hadvances⟩ := hat.after hreads
      exact ⟨s', hread, hadvances, hat'⟩
  | @next p p₁ fields first later values begun place one _ ih =>
    rw [List.flatMap_append, List.append_assoc] at hfront
    have hfirst := hroomy.left
    have hlater := hroomy.right
    cases count with
    | some n =>
      obtain rfl := hcount n rfl
      obtain ⟨s₁, hrun, hadvances, hat₁⟩ := hbody one hfirst (fun h => by cases h) hat hfront
      obtain ⟨s₂, hmore, hadvances', hat₂⟩ := ih (some values.length) hplace hlater
        (fun n hn => Option.some.inj hn) (fun h => by cases h) hat₁ (hadvances.rest_eq hfront)
      refine ⟨s₂, ?_, hadvances.append hadvances', hat₂⟩
      rw [elements, List.length_cons, times, bind_of_ok (map_of_ok hrun)]
      exact (bind_of_ok hmore).trans rfl
    | none =>
      obtain ⟨hwide, hlong, -⟩ := hleast rfl
      have hone := hlong _ _ _ _ one
      obtain ⟨s₁, hlook, hstep⟩ := toEnd_of_front idle (Step.ofBody <$> body)
        hat.sound hat.ends hone hfront
      obtain ⟨hat₁, hlooked⟩ := hat.after hlook
      obtain ⟨s₂, hrun, hadvances, hat₂⟩ := hbody one hfirst (fun h => by cases h) hat₁
        (hlook.rest_eq hfront)
      have hadvances := hlooked.trans hadvances
      obtain ⟨s₃, hmore, hadvances', hat₃⟩ := ih none hplace hlater
        (fun n hn => by cases hn) hleast hat₂ (hadvances.rest_eq hfront)
      refine ⟨s₃, hstep (map_of_ok hrun) ?_ hmore, hadvances.append hadvances', hat₃⟩
      -- The element is not idle: it has the bits that an element takes at least.
      have := hadvances.consumes.remaining
      rw [List.nil_append] at this
      omega
  | cut | dropped => cases hplace

/-- A structure or an array of them in front is read. -/
theorem group_of_front (head : Header) {endless : Bool} {certain : Nat}
    {length : Option Length} {v : Value}
    (hbody : Gives ctx body endless spells) (honce : length.isSome = true → endless = false)
    (hcertain : ∀ p fields pieces p', spells p fields pieces (some p') →
      certain ≤ (pieces.flatMap Piece.bits).length)
    (h : Group.Spells ctx certain spells length p v pieces (some p')) (hroomy : Roomy pieces)
    (hpadding : length = some .unbounded ∨ endless = true → Padding rest) (hat : At p s)
    (hfront : s.stream.ahead ctx.options.bitOrder = pieces.flatMap Piece.bits ++ rest) :
    ∃ s', group ctx head length certain body s = .ok (v, .goOn) s' ∧
      Advances ctx (pieces.flatMap Piece.bits) s s' ∧ At p' s' := by
  cases h with
  | struct one =>
    obtain ⟨s₁, hrun, hadvances, hat₁⟩ :=
      hbody one hroomy (fun h => hpadding (Or.inr h)) hat hfront
    exact ⟨s₁, (bind_of_ok hrun).trans rfl, hadvances, hat₁⟩
  | @counted l _ values es n begun _ hcount all hle heq =>
    cases honce rfl
    obtain ⟨questions, hc⟩ := (PassM.computes_arrayCount ctx s l).of_ok (by rw [hat.env, hcount])
    obtain ⟨s₁, hrun, hadvances, hat₁⟩ := structs_of_front hbody
      (.idleStructure (head.describe Kind.opening.name)) (some n) all rfl
      (fun n hn => hroomy n (List.mem_cons_of_mem _ hn))
      (fun m hm => by rw [all.length_eq, heq rfl, Option.some.inj hm]) (fun h => by cases h)
      (hat.asking (s.asked ++ questions)) hfront
    refine ⟨s₁, ?_, hadvances.of_stream_eq rfl rfl, hat₁⟩
    exact (bind_of_ok hc).trans ((bind_of_ok hrun).trans rfl)
  | @unbounded l _ values es begun _ hcount all =>
    cases honce rfl
    obtain ⟨questions, hc⟩ := (PassM.computes_arrayCount ctx s l).of_ok (by rw [hat.env, hcount])
    -- The least width is at least a byte, so fewer than eight bits of padding end the loop.
    have hwide : 8 ≤ leastBits certain := hroomy _ (by simp [leastBits])
    have hbits : (.elements values.length ::
        (es ++ [.ended (min (max certain 1) 0xFFFFFFFF)])).flatMap Piece.bits =
          es.flatMap Piece.bits := by
      simp [Piece.bits]
    rw [hbits] at hfront ⊢
    obtain ⟨s₁, hrun, hadvances, hat₁⟩ := structs_of_front hbody
      (.idleStructure (head.describe Kind.opening.name)) none all rfl
      (fun n hn => hroomy n (by simp [hn])) (fun n hn => by cases hn)
      (fun _ => ⟨hwide, fun p fields pieces p' one => by
          have := hcertain p fields pieces p' one
          simp only [leastBits] at hwide ⊢
          omega,
        hpadding (Or.inl (by rw [PassContext.eq_unbounded_of_count hcount]))⟩)
      (hat.asking (s.asked ++ questions)) hfront
    refine ⟨s₁, ?_, hadvances.of_stream_eq rfl rfl, hat₁⟩
    exact (bind_of_ok hc).trans ((bind_of_ok hrun).trans rfl)

/-- A strict read pass gives the record of the layout that is in front. -/
theorem fields_of_front {l : Layout} (hstrict : ctx.options.lenient = false)
    (hterminal : l.Terminal) : Gives ctx (fields ctx l) l.endless (l.Spells ctx) := by
  induction l with
  | done =>
    rintro p p' s found pieces rest ⟨rfl, rfl, hplace⟩ - - hat -
    cases hplace
    exact ⟨s, rfl, Advances.refl hat.sound, hat⟩
  | item head decl later ih =>
    intro p p' s found pieces rest h hroomy hpadding hat hfront
    rcases h with ⟨-, -, -, ⟨⟩⟩ | ⟨node, first, p₁, more, pieces', hdecl, hlater, rfl, rfl⟩
    rw [List.flatMap_append, List.append_assoc] at hfront
    -- Nothing follows an unbounded array, so that its padding is that of the record.
    have hpaddingFirst : decl.length = some .unbounded →
        Padding (pieces'.flatMap Piece.bits ++ rest) := by
      intro hlength
      have hdone := hterminal.1 hlength
      subst hdone
      obtain ⟨-, rfl, -⟩ := hlater
      exact hpadding (by simp [Layout.endless, hlength])
    obtain ⟨s₁, hitem, hadvances, hat₁⟩ := item_of_front hdecl
      hroomy.left hpaddingFirst hat hfront
    obtain ⟨s₂, hrun, hadvances', hat₂⟩ := ih hterminal.2 hlater
      hroomy.right
      (fun h => hpadding (by rw [Layout.endless, h, Bool.or_true])) hat₁ (hadvances.rest_eq hfront)
    refine ⟨s₂, ?_, hadvances.append hadvances', hat₂⟩
    rw [fields, endsBefore_of_strict hstrict, pure_bind]
    exact (bind_of_ok hitem).trans ((bind_of_ok hrun).trans rfl)
  | group head length body closing later ihbody ihlater =>
    intro p p' s found pieces rest h hroomy hpadding hat hfront
    obtain ⟨hlast, honce, hbodyTerminal, hlaterTerminal⟩ := hterminal
    rcases h with ⟨-, -, -, ⟨⟩⟩ |
      ⟨v, first, ⟨-, -, -, ⟨⟩⟩ | ⟨p₁, more, pieces', hgroup, hlater, rfl, rfl⟩⟩
    rw [List.flatMap_append, List.append_assoc] at hfront
    have hpaddingFirst : length = some .unbounded ∨ body.endless = true →
        Padding (pieces'.flatMap Piece.bits ++ rest) := by
      intro hendless
      have hdone := hlast hendless
      subst hdone
      obtain ⟨-, rfl, -⟩ := hlater
      exact hpadding (by simpa [Layout.endless] using hendless)
    obtain ⟨s₁, hrun, hadvances, hat₁⟩ := group_of_front head (ihbody hbodyTerminal) honce
      (fun _ _ _ _ => Layout.Spells.certainBits_le) hgroup
      hroomy.left hpaddingFirst hat hfront
    obtain ⟨s₂, hmore, hadvances', hat₂⟩ := ihlater hlaterTerminal hlater
      hroomy.right
      (fun h => hpadding (by rw [Layout.endless, h, Bool.or_true])) hat₁ (hadvances.rest_eq hfront)
    refine ⟨s₂, ?_, hadvances.append hadvances', hat₂⟩
    rw [fields, endsBefore_of_strict hstrict, pure_bind]
    exact (bind_of_ok hrun).trans ((bind_of_ok hmore).trans rfl)

end RecordLayout.Decode
