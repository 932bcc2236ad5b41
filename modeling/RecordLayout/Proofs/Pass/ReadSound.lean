import RecordLayout.Layout.Listing
import RecordLayout.Proofs.Pass.ReadState

/-!
# A read gives a record of the layout

Whatever a read pass takes from a stream is a record of its layout: the fields are those of the
record, and its bits are the ones that were in front. A pass that stops has left no bit.
-/

namespace RecordLayout.Decode

/-! ## Repetitions -/

section

variable {α : Type} {P : PassState Reader → List α → Flow → PassState Reader → Prop}
  (element : PassM Reader (Step α)) {s s' : PassState Reader} {xs : List α} {flow : Flow}

/-- What holds of no element and of one element in front of others holds of a repetition. -/
theorem times_induction {Q : Nat → PassState Reader → List α → Flow → PassState Reader → Prop}
    (hzero : ∀ s, Q 0 s [] .goOn s)
    (hlast : ∀ n s x s', element s = .ok (.last x) s' → Q (n + 1) s x.toList .stop s')
    (hnext : ∀ n s x s₁ xs flow s', element s = .ok (.next x) s₁ → Q n s₁ xs flow s' →
      Q (n + 1) s (x :: xs) flow s')
    {n : Nat} (h : times element n s = .ok (xs, flow) s') : Q n s xs flow s' := by
  induction n generalizing s xs flow with
  | zero =>
    cases h
    exact hzero _
  | succ n ih =>
    rw [times] at h
    obtain ⟨step, s₁, hstep, h⟩ := bind_eq_ok.mp h
    cases step with
    | last x =>
      cases h
      exact hlast n _ x _ hstep
    | next x =>
      obtain ⟨⟨more, flow'⟩, s₂, hmore, h⟩ := bind_eq_ok.mp h
      cases h
      exact hnext n _ x s₁ more _ _ hstep (ih hmore)

/-- The same of a repetition up to the end of the stream. -/
theorem toEnd_induction {least : Nat} {order : BitOrder} {idle : Error}
    (hend : ∀ s s', PassM.onStream (Reader.atEndFor least order) s = .ok true s' → P s [] .goOn s')
    (hlast : ∀ s s₁ x s', PassM.onStream (Reader.atEndFor least order) s = .ok false s₁ →
      element s₁ = .ok (.last x) s' → P s x.toList .stop s')
    (hnext : ∀ s s₁ x s₂ xs flow s', PassM.onStream (Reader.atEndFor least order) s = .ok false s₁ →
      element s₁ = .ok (.next x) s₂ → s₂.stream.remaining < s.stream.remaining → P s₂ xs flow s' →
      P s (x :: xs) flow s')
    (h : toEnd least order idle element s = .ok (xs, flow) s') : P s xs flow s' := by
  -- The induction follows the bits that remain, as the recursion of the loop does.
  induction hremaining : s.stream.remaining using Nat.strongRecOn generalizing s xs flow with
  | ind n ih =>
  rw [toEnd] at h
  cases hat : PassM.onStream (Reader.atEndFor least order) s with
  | error e s₁ =>
    rw [hat] at h
    cases h
  | ok atEnd s₁ =>
    rw [hat] at h
    cases atEnd with
    | true =>
      cases h
      exact hend s s' hat
    | false =>
      simp only at h
      cases hstep : element s₁ with
      | error e s₂ =>
        rw [hstep] at h
        cases h
      | ok step s₂ =>
        rw [hstep] at h
        cases step with
        | last x =>
          cases h
          exact hlast s s₁ x s' hat hstep
        | next x =>
          simp only at h
          split at h
          · rename_i hless
            cases hmore : toEnd least order idle element s₂ with
            | error e s₃ =>
              rw [hmore] at h
              cases h
            | ok result s₃ =>
              obtain ⟨more, flow'⟩ := result
              rw [hmore] at h
              cases h
              exact hnext s s₁ x s₂ more flow s' hat hstep hless
                (ih _ (hremaining ▸ hless) hmore rfl)
          · cases h

end

/-! ## Values -/

variable {ctx : PassContext} {head : Header} {type : ElementType} {w : Nat} {p : Place}
  {s s' : PassState Reader}

/-- An operation of the stream that reads these bits and nothing else. -/
def ReadsOnly (ctx : PassContext) (bits : List Bool) (s s' : PassState Reader) : Prop :=
  ∃ r, s' = { s with stream := r } ∧ Reader.Reads ctx.options.bitOrder bits s.stream r

/-- A value that an element gives is of its type, and the bits that were read are those that spell
it. -/
theorem element_sound {v : Value} (hs : s.stream.Sound) {env : Expr.Env}
    (hwidth : type.width env = .ok w) (hcustom : ∀ use extra, type ≠ .custom use extra)
    (h : element ctx head w type s = .ok v s') :
    type.Fits w v ∧ ReadsOnly ctx (type.spell head.order w v) s s' := by
  cases type with
  | fixed type =>
    obtain ⟨n, s₁, hop, h⟩ := bind_eq_ok.mp h
    obtain ⟨r, hread, rfl⟩ := PassM.onStream_eq_ok.mp hop
    obtain ⟨hv, rfl⟩ := settle_eq_ok.mp h
    obtain ⟨htakes, hn, hfront⟩ := Reader.readNumber_eq_ok hs hread
    have hnumber := FixedType.number_of_ofNumber hn hv
    refine ⟨⟨by rwa [hnumber], by rwa [hnumber]⟩, r, rfl, ?_, ?_⟩
    · simpa [ElementType.spell] using htakes
    · rw [ElementType.spell, hnumber, hfront]
  | bit a =>
    obtain ⟨n, s₁, hop, h⟩ := bind_eq_ok.mp h
    obtain ⟨r, hread, rfl⟩ := PassM.onStream_eq_ok.mp hop
    cases h
    obtain ⟨htakes, hn, hfront⟩ := Reader.readBits_eq_ok hs hread
    have hle := (ElementType.width_bit hwidth).2
    have hbyte : n.toUInt8.toNat = n.toNat := by
      have hpow : 2 ^ w ≤ 2 ^ 8 := Nat.pow_le_pow_right (by decide) hle
      rw [UInt64.toNat_toUInt8]
      exact Nat.mod_eq_of_lt (Nat.lt_of_lt_of_le hn hpow)
    refine ⟨⟨hle, n.toUInt8, rfl, by rwa [hbyte]⟩, r, rfl, ?_, ?_⟩
    · simpa [ElementType.spell] using htakes
    · rw [ElementType.spell, Value.number, hbyte, hfront]
  | text =>
    obtain ⟨t, hop, rfl⟩ := map_eq_ok.mp h
    obtain ⟨r, hread, rfl⟩ := PassM.onStream_eq_ok.mp hop
    obtain ⟨htakes, hfits, hfront⟩ := Reader.readText_eq_ok hs hread
    refine ⟨⟨t, rfl, hfits⟩, r, rfl, ?_, ?_⟩
    · simpa [ElementType.spell, Value.asText] using htakes
    · rw [ElementType.spell, Value.asText, hfront]
  | custom use extra => exact absurd rfl (hcustom use extra)

theorem ReadsOnly.refl (hs : s.stream.Sound) : ReadsOnly ctx [] s s :=
  ⟨s.stream, rfl, Reader.Reads.refl hs⟩

theorem ReadsOnly.trans {bits bits' : List Bool} {s₁ : PassState Reader}
    (h₁ : ReadsOnly ctx bits s s₁) (h₂ : ReadsOnly ctx bits' s₁ s') :
    ReadsOnly ctx (bits ++ bits') s s' := by
  obtain ⟨r₁, rfl, hr₁⟩ := h₁
  obtain ⟨r₂, rfl, hr₂⟩ := h₂
  exact ⟨r₂, rfl, hr₁.trans hr₂⟩

theorem ReadsOnly.sound {bits : List Bool} (h : ReadsOnly ctx bits s s') : s'.stream.Sound := by
  obtain ⟨r, rfl, hr⟩ := h
  exact hr.sound

theorem ReadsOnly.ends {bits : List Bool} (h : ReadsOnly ctx bits s s')
    (hf : s.stream.source.failure = none) : s'.stream.source.failure = none := by
  obtain ⟨r, rfl, hr⟩ := h
  exact hr.failure.trans hf

/-- Looking for the end of the stream reads nothing. -/
theorem atEndFor_sound {least : Nat} {atEnd : Bool} (hs : s.stream.Sound)
    (hf : s.stream.source.failure = none)
    (h : PassM.onStream (Reader.atEndFor least ctx.options.bitOrder) s = .ok atEnd s') :
    ReadsOnly ctx [] s s' := by
  obtain ⟨r, hat, rfl⟩ := PassM.onStream_eq_ok.mp h
  obtain ⟨r', htakes, heq⟩ := Reader.atEndFor_of_ends hs hf least ctx.options.bitOrder
  have hr : r = r' := by
    rw [heq] at hat
    split at hat
    · cases hat
      rfl
    split at hat
    · cases hat
      rfl
    · cases hat
  subst hr
  exact ⟨r, rfl, by simpa using htakes.reads ctx.options.bitOrder⟩

/-- Values in a row, for what the reading of one says. -/
theorem elements_sound {α : Type} {one : PassM Reader α} {spell : α → List Bool} {good : α → Prop}
    (hone : ∀ s x s', s.stream.Sound → one s = .ok x s' → good x ∧ ReadsOnly ctx (spell x) s s')
    {least : Nat} {idle : Error} {count : Option Nat} {xs : List α} {flow : Flow}
    (hs : s.stream.Sound) (hf : s.stream.source.failure = none)
    (h : elements ctx least idle (.next <$> one) count s = .ok (xs, flow) s') :
    (∀ n, count = some n → xs.length = n) ∧ (∀ x ∈ xs, good x) ∧
      ReadsOnly ctx (xs.flatMap spell) s s' := by
  have hstep : ∀ s step s', s.stream.Sound → (Step.next <$> one) s = .ok step s' →
      ∃ x, step = .next x ∧ good x ∧ ReadsOnly ctx (spell x) s s' := by
    intro s step s' hs hmap
    obtain ⟨x, hx, rfl⟩ := map_eq_ok.mp hmap
    exact ⟨x, rfl, hone s x s' hs hx⟩
  cases count with
  | some n =>
    have key := times_induction (Step.next <$> one)
      (Q := fun n s xs _ s' => s.stream.Sound → xs.length = n ∧ (∀ x ∈ xs, good x) ∧
        ReadsOnly ctx (xs.flatMap spell) s s')
      (fun s hs => ⟨rfl, by simp, ReadsOnly.refl hs⟩)
      (fun n s x s' hx hs => by
        -- These elements always go on.
        obtain ⟨y, hy, -⟩ := hstep s _ s' hs hx
        cases hy)
      (fun n s x s₁ xs flow s' hx hrest hs => by
        obtain ⟨y, hy, hgood, hreads⟩ := hstep s _ s₁ hs hx
        cases hy
        obtain ⟨hlen, hall, hreads'⟩ := hrest hreads.sound
        refine ⟨by rw [List.length_cons, hlen], ?_, ?_⟩
        · rintro z (- | ⟨_, hz⟩)
          · exact hgood
          · exact hall z hz
        · rw [List.flatMap_cons]
          exact hreads.trans hreads')
      h hs
    refine ⟨?_, key.2⟩
    rintro m ⟨⟩
    exact key.1
  | none =>
    have key := toEnd_induction (Step.next <$> one)
      (P := fun s xs _ s' => s.stream.Sound → s.stream.source.failure = none →
        (∀ x ∈ xs, good x) ∧ ReadsOnly ctx (xs.flatMap spell) s s')
      (fun s s' hat hs hf => ⟨by simp, atEndFor_sound hs hf hat⟩)
      (fun s s₁ x s' hat hx hs hf => by
        obtain ⟨y, hy, -⟩ := hstep s₁ _ s' (atEndFor_sound hs hf hat).sound hx
        cases hy)
      (fun s s₁ x s₂ xs flow s' hat hx _ hrest hs hf => by
        have hlook := atEndFor_sound hs hf hat
        obtain ⟨y, hy, hgood, hreads⟩ := hstep s₁ _ s₂ hlook.sound hx
        cases hy
        have hreads := hlook.trans hreads
        obtain ⟨hall, hreads'⟩ := hrest hreads.sound (hreads.ends hf)
        refine ⟨?_, ?_⟩
        · rintro z (- | ⟨_, hz⟩)
          · exact hgood
          · exact hall z hz
        · rw [List.flatMap_cons]
          exact hreads.trans hreads')
      h hs hf
    exact ⟨by simp, key⟩

/-- An array of bytes has the bytes that were read, as many as it was counted. -/
theorem byteArray_sound {count : Option Nat} {bs : List UInt8} (hs : s.stream.Sound)
    (hf : s.stream.source.failure = none) (h : byteArray ctx type count s = .ok bs s') :
    (∀ n, count = some n → bs.length = n) ∧ ReadsOnly ctx (Bits.ofBytes bs) s s' := by
  cases count with
  | some n =>
    obtain ⟨r, hread, rfl⟩ := PassM.onStream_eq_ok.mp h
    obtain ⟨htakes, hlen, hfront⟩ := Reader.readBytes_eq_ok hs hread
    refine ⟨by simpa using hlen, r, rfl, ?_, hfront⟩
    rwa [Bits.length_ofBytes, hlen]
  | none =>
    obtain ⟨⟨xs, flow⟩, hread, rfl⟩ := map_eq_ok.mp h
    have hone : ∀ s (b : UInt8) s', s.stream.Sound →
        PassM.onStream (Reader.readByte ctx.options.bitOrder) s = .ok b s' →
        True ∧ ReadsOnly ctx (Bits.ofNat b.toNat 8) s s' := by
      intro s b s' hs hop
      obtain ⟨r, hread, rfl⟩ := PassM.onStream_eq_ok.mp hop
      obtain ⟨htakes, hfront⟩ := Reader.readByte_eq_ok hs hread
      exact ⟨trivial, r, rfl, by simpa using htakes, hfront⟩
    have hread : elements ctx 8 (.idleElement type.name)
        (.next <$> PassM.onStream (Reader.readByte ctx.options.bitOrder)) none s =
          .ok (xs, flow) s' :=
      hread
    exact ⟨by simp, (elements_sound hone hs hf hread).2.2⟩

/-- A value that is read fits its slot, and was spelled there. -/
theorem value_sound {length : Option Length} {v : Value} (hat : At p s)
    (hcustom : ∀ use extra, type ≠ .custom use extra)
    (h : value ctx head type length s = .ok v s') :
    ∃ w questions, type.width (p.env ctx) = .ok w ∧
      (Slot.mk head.order type w length.isSome).Fits v ∧
      (∀ l, length = some l → ∃ count, ctx.count (p.env ctx) l = .ok count ∧
        ∀ n, count = some n → v.length? = some n) ∧
      ReadsOnly ctx ((Slot.mk head.order type w length.isSome).spell v)
        { s with asked := questions } s' := by
  obtain ⟨w, s₁, hw, h⟩ := bind_eq_ok.mp h
  obtain ⟨hwidth, first, rfl⟩ := (PassM.computes_bitWidth ctx s type).eq_ok hw
  rw [hat.env] at hwidth
  have hat₁ := hat.asking (s.asked ++ first)
  cases length with
  | none =>
    obtain ⟨hfits, hreads⟩ := element_sound hat₁.sound hwidth hcustom h
    exact ⟨w, _, hwidth, hfits, by simp, hreads⟩
  | some l =>
    obtain ⟨count, s₂, hc, h⟩ := bind_eq_ok.mp h
    obtain ⟨hcount, second, rfl⟩ := (PassM.computes_arrayCount ctx _ l).eq_ok hc
    rw [hat₁.env] at hcount
    have hat₂ := hat₁.asking (s.asked ++ first ++ second)
    refine ⟨w, s.asked ++ first ++ second, hwidth, ?_⟩
    split at h
    · rename_i hbyte
      obtain ⟨bs, hread, rfl⟩ := map_eq_ok.mp h
      obtain ⟨hlen, hreads⟩ := byteArray_sound hat₂.sound hat₂.ends hread
      refine ⟨?_, ?_, hreads⟩
      · simp only [Slot.Fits, Option.isSome_some, hbyte]
        exact ⟨bs, rfl⟩
      · rintro l' ⟨⟩
        exact ⟨count, hcount, fun n hn => by rw [Value.length?, hlen n hn]⟩
    · rename_i hbyte
      obtain ⟨⟨items, flow⟩, s₃, hread, h⟩ := bind_eq_ok.mp h
      cases h
      obtain ⟨hlen, hall, hreads⟩ := elements_sound
        (fun s x s' hs hx => element_sound hs hwidth hcustom hx) hat₂.sound hat₂.ends hread
      refine ⟨?_, ?_, hreads⟩
      · simp only [Slot.Fits, Option.isSome_some, Bool.not_eq_true _ ▸ hbyte]
        exact ⟨items, rfl, hall⟩
      · rintro l' ⟨⟩
        exact ⟨count, hcount, fun n hn => by rw [Value.length?, hlen n hn]⟩

/-! ## Declarations -/

theorem At.after {bits : List Bool} (hat : At p s) (h : ReadsOnly ctx bits s s') :
    At (p.advance bits.length) s' ∧ Advances ctx bits s s' := by
  obtain ⟨r, rfl, hr⟩ := h
  exact hat.reads hr

/-- The same behind questions to the resolver. -/
theorem ReadsOnly.advances {bits : List Bool} {questions : List (String × Expr)} (hat : At p s)
    (h : ReadsOnly ctx bits { s with asked := questions } s') :
    At (p.advance bits.length) s' ∧ Advances ctx bits s s' := by
  obtain ⟨hat', hadvances⟩ := (hat.asking questions).after h
  exact ⟨hat', hadvances.of_stream_eq rfl rfl⟩

/-- What the declaration of a value reads. -/
theorem node_sound {length : Option Length} {node : Option Field} (hat : At p s)
    (hcustom : ∀ use extra, type ≠ .custom use extra)
    (h : item ctx head (.value type length) s = .ok node s') :
    ∃ pieces p', (Decl.value type length).Spells ctx head p node pieces p' ∧
      Advances ctx (pieces.flatMap Piece.bits) s s' ∧ At p' s' := by
  obtain ⟨v, s₁, hv, h⟩ := bind_eq_ok.mp h
  obtain ⟨w, questions, hwidth, hfits, hcount, hreads⟩ := value_sound hat hcustom hv
  obtain ⟨hat₁, hadvances⟩ := hreads.advances hat
  cases length with
  | none =>
    obtain ⟨u, s₂, hregister, h⟩ := bind_eq_ok.mp h
    obtain ⟨s₃, hregister', hat₃, hstream⟩ := hat₁.register head.info v
    cases h
    cases hregister.symm.trans hregister'
    refine ⟨_, _, .single hwidth hfits, ?_, hat₃⟩
    simpa [Piece.bits] using hadvances.of_stream_eq rfl hstream.symm
  | some l =>
    cases h
    obtain ⟨count, hcount, hlen⟩ := hcount l rfl
    cases count with
    | some n =>
      refine ⟨_, _, .counted hwidth hcount (hlen n rfl) hfits, ?_, hat₁⟩
      simpa [Piece.bits] using hadvances
    | none =>
      refine ⟨_, _, .unbounded hwidth hcount hfits, ?_, hat₁⟩
      simpa [Piece.bits] using hadvances

/-- What a declaration reads is spelled as it says. -/
theorem item_sound {decl : Decl} {node : Option Field} (hat : At p s)
    (hcustom : decl.customUse = none) (h : item ctx head decl s = .ok node s') :
    ∃ pieces p', decl.Spells ctx head p node pieces p' ∧
      Advances ctx (pieces.flatMap Piece.bits) s s' ∧ At p' s' := by
  cases decl with
  | value type length =>
    refine node_sound hat ?_ h
    rintro use extra rfl
    cases hcustom
  | computed amount =>
    obtain ⟨n, s₁, hn, h⟩ := bind_eq_ok.mp h
    obtain ⟨hvalue, questions, rfl⟩ := (PassM.computes_amount ctx s amount).eq_ok hn
    rw [hat.env] at hvalue
    obtain ⟨u, s₂, hregister, h⟩ := bind_eq_ok.mp h
    obtain ⟨s₃, hregister', hat₃, hstream⟩ :=
      (hat.asking (s.asked ++ questions)).register head.info (.long n)
    cases h
    cases hregister.symm.trans hregister'
    exact ⟨_, _, .computed hvalue, (Advances.refl hat.sound).of_stream_eq rfl hstream.symm, hat₃⟩
  | align a =>
    obtain ⟨n, s₁, hn, h⟩ := bind_eq_ok.mp h
    obtain ⟨hvalue, questions, rfl⟩ := (PassM.computes_alignment ctx s a).eq_ok hn
    rw [hat.env] at hvalue
    obtain ⟨u, s₂, hop, h⟩ := bind_eq_ok.mp h
    cases h
    obtain ⟨r, halign, rfl⟩ := PassM.onStream_eq_ok.mp hop
    have htakes := Reader.align_eq_ok hat.sound halign
    have hreads : ReadsOnly ctx _ { s with asked := s.asked ++ questions }
        { s with stream := r, asked := s.asked ++ questions } :=
      ⟨r, rfl, htakes.reads ctx.options.bitOrder⟩
    obtain ⟨hat', hadvances⟩ := hreads.advances hat
    refine ⟨_, _, .align hvalue ?_, by simpa [Piece.bits] using hadvances, hat'⟩
    rw [← hat.position, List.length_take, Reader.length_ahead]
    exact Nat.min_eq_left htakes.enough
  | skip a =>
    obtain ⟨n, s₁, hn, h⟩ := bind_eq_ok.mp h
    obtain ⟨hvalue, questions, rfl⟩ := (PassM.computes_skipCount ctx s a).eq_ok hn
    rw [hat.env] at hvalue
    obtain ⟨u, s₂, hop, h⟩ := bind_eq_ok.mp h
    cases h
    obtain ⟨r, hskip, rfl⟩ := PassM.onStream_eq_ok.mp hop
    have htakes := Reader.skipBytes_eq_ok hat.sound hskip
    have hreads : ReadsOnly ctx _ { s with asked := s.asked ++ questions }
        { s with stream := r, asked := s.asked ++ questions } :=
      ⟨r, rfl, htakes.reads ctx.options.bitOrder⟩
    obtain ⟨hat', hadvances⟩ := hreads.advances hat
    refine ⟨_, _, .skip hvalue ?_, by simpa [Piece.bits] using hadvances, hat'⟩
    rw [List.length_take, Reader.length_ahead]
    exact Nat.min_eq_left htakes.enough
  | reset =>
    obtain ⟨u, s₁, hop, h⟩ := bind_eq_ok.mp h
    cases h
    obtain ⟨r, hreset, rfl⟩ := PassM.onStream_eq_ok.mp hop
    obtain ⟨r', hreset', hconsumes, hposition⟩ := Reader.reset_apply hat.sound
    cases hreset.symm.trans hreset'
    have hlen : ((s.stream.ahead ctx.options.bitOrder).take (Bits.toByte p.position)).length =
        Bits.toByte p.position := by
      rw [← hat.position, List.length_take, Reader.length_ahead]
      exact Nat.min_eq_left hconsumes.enough
    refine ⟨_, _, .reset hlen, ⟨?_, ?_⟩,
      ⟨hat.numbers, hposition, hconsumes.sound, hconsumes.failure.trans hat.ends⟩⟩
    · simp only [List.flatMap_cons, List.flatMap_nil, List.append_nil, Piece.bits]
      rw [hlen, ← hat.position]
      exact hconsumes
    · simp only [List.flatMap_cons, List.flatMap_nil, List.append_nil, Piece.bits]
      rw [← hat.position]
      exact hconsumes.ahead_eq ctx.options.bitOrder

/-! ## Structures -/

/-- Where a part of the layout leaves the pass: at the place behind it, or at the end of the stream.
-/
def After (flow : Flow) (s : PassState Reader) : Option Place → Prop
  | some p => flow = .goOn ∧ At p s
  | none => flow = .stop ∧ s.stream.remaining = 0

/-- What an operation reads is spelled as the relation says. -/
def Follows (ctx : PassContext) (m : PassM Reader (List Field × Flow))
    (spells : Place → List Field → List Piece → Option Place → Prop) : Prop :=
  ∀ {p s found flow s'}, At p s → m s = .ok (found, flow) s' →
    ∃ pieces place, spells p found pieces place ∧
      Advances ctx (pieces.flatMap Piece.bits) s s' ∧ After flow s' place

/-- A pass that stops in front of a declaration is lenient and has no bits left. -/
theorem endsBefore_sound {holds ends : Bool} (hat : At p s)
    (h : endsBefore ctx holds s = .ok ends s') :
    At p s' ∧ Advances ctx [] s s' ∧
      (ends = true → (ctx.options.lenient = true ∧ holds = true) ∧ s'.stream.remaining = 0) := by
  unfold endsBefore at h
  split at h
  · rename_i hlenient
    obtain ⟨r, hexhausted, rfl⟩ := PassM.onStream_eq_ok.mp h
    obtain ⟨r', hexhausted', htakes⟩ := Reader.isExhausted_of_ends hat.sound hat.ends
    cases hexhausted.symm.trans hexhausted'
    have hreads : Reader.Reads ctx.options.bitOrder [] s.stream r := by
      simpa using htakes.reads ctx.options.bitOrder
    obtain ⟨hat', hadvances⟩ := hat.reads hreads
    refine ⟨hat', hadvances, fun hends => ⟨by simpa using hlenient, ?_⟩⟩
    have := htakes.remaining
    have hzero := of_decide_eq_true hends
    show r.remaining = 0
    omega
  · cases h
    exact ⟨hat, Advances.refl hat.sound, fun h => by cases h⟩

variable {body : PassM Reader (List Field × Flow)}
  {spells : Place → List Field → List Piece → Option Place → Prop}

/-- An element that goes on spells one structure out. -/
theorem next_sound (hbody : Follows ctx body spells) {x : Value} (hat : At p s)
    (h : (Step.ofBody <$> body) s = .ok (.next x) s') :
    ∃ found pieces p', x = .struct found ∧ spells p found pieces (some p') ∧
      Advances ctx (pieces.flatMap Piece.bits) s s' ∧ At p' s' := by
  obtain ⟨⟨found, flow⟩, hrun, hstep⟩ := map_eq_ok.mp h
  obtain ⟨pieces, place, hspells, hadvances, hafter⟩ := hbody hat hrun
  cases flow with
  | stop => cases hstep
  | goOn =>
    cases hstep
    cases place with
    | none => cases hafter.1
    | some p' => exact ⟨found, pieces, p', rfl, hspells, hadvances, hafter.2⟩

theorem last_sound (hbody : Follows ctx body spells) {x : Option Value} (hat : At p s)
    (h : (Step.ofBody <$> body) s = .ok (.last x) s') :
    ∃ pieces, Elements.Spells spells p x.toList pieces 1 none ∧
      Advances ctx (pieces.flatMap Piece.bits) s s' ∧ s'.stream.remaining = 0 := by
  obtain ⟨⟨found, flow⟩, hrun, hstep⟩ := map_eq_ok.mp h
  obtain ⟨pieces, place, hspells, hadvances, hafter⟩ := hbody hat hrun
  cases flow with
  | goOn => cases hstep
  | stop =>
    cases hstep
    cases place with
    | some p' => cases hafter.1
    | none =>
      cases found with
      | nil => exact ⟨_, .dropped hspells, by simpa [Piece.bits] using hadvances, hafter.2⟩
      | cons f found => exact ⟨_, .cut hspells (by simp), hadvances, hafter.2⟩

/-- Looking for the end of the stream moves nothing. -/
theorem look_sound {least : Nat} {atEnd : Bool} (hat : At p s)
    (h : PassM.onStream (Reader.atEndFor least ctx.options.bitOrder) s = .ok atEnd s') :
    At p s' ∧ Advances ctx [] s s' :=
  hat.after (atEndFor_sound hat.sound hat.ends h)

/-- Structures in a row are spelled one behind the other. -/
theorem structs_sound (hbody : Follows ctx body spells) {least : Nat} {idle : Error}
    {count : Option Nat} {values : List Value} {flow : Flow} (hat : At p s)
    (h : elements ctx least idle (Step.ofBody <$> body) count s = .ok (values, flow) s') :
    ∃ pieces begun place, Elements.Spells spells p values pieces begun place ∧
      (∀ n, count = some n → begun ≤ n ∧ (place.isSome → begun = n)) ∧
      Advances ctx (pieces.flatMap Piece.bits) s s' ∧ After flow s' place := by
  cases count with
  | some n =>
    have key := times_induction (Step.ofBody <$> body)
      (Q := fun n s values flow s' => ∀ p, At p s →
        ∃ pieces begun place, Elements.Spells spells p values pieces begun place ∧
          (begun ≤ n ∧ (place.isSome → begun = n)) ∧
          Advances ctx (pieces.flatMap Piece.bits) s s' ∧ After flow s' place)
      (fun s p hat => ⟨[], 0, some p, .nil, ⟨Nat.le_refl 0, fun _ => rfl⟩,
        Advances.refl hat.sound, rfl, hat⟩)
      (fun n s x s' hx p hat => by
        obtain ⟨pieces, hspells, hadvances, hend⟩ := last_sound hbody hat hx
        exact ⟨pieces, 1, none, hspells, ⟨by omega, by simp⟩, hadvances, rfl, hend⟩)
      (fun n s x s₁ values flow s' hx hrest p hat => by
        obtain ⟨found, first, p₁, rfl, hspells, hadvances, hat₁⟩ := next_sound hbody hat hx
        obtain ⟨later, begun, place, hspells', hbegun, hadvances', hafter⟩ := hrest p₁ hat₁
        exact ⟨first ++ later, begun + 1, place, .next hspells hspells',
          ⟨by omega, fun h => by rw [hbegun.2 h]⟩, hadvances.append hadvances', hafter⟩)
      h p hat
    obtain ⟨pieces, begun, place, hspells, hbegun, hadvances, hafter⟩ := key
    refine ⟨pieces, begun, place, hspells, ?_, hadvances, hafter⟩
    rintro m ⟨⟩
    exact hbegun
  | none =>
    have key := toEnd_induction (Step.ofBody <$> body)
      (P := fun s values flow s' => ∀ p, At p s →
        ∃ pieces begun place, Elements.Spells spells p values pieces begun place ∧
          Advances ctx (pieces.flatMap Piece.bits) s s' ∧ After flow s' place)
      (fun s s' hend p hat => by
        obtain ⟨hat', hadvances⟩ := look_sound hat hend
        exact ⟨[], 0, some p, .nil, hadvances, rfl, hat'⟩)
      (fun s s₁ x s' hmore hx p hat => by
        obtain ⟨hat₁, hlook⟩ := look_sound hat hmore
        obtain ⟨pieces, hspells, hadvances, hend⟩ := last_sound hbody hat₁ hx
        exact ⟨pieces, 1, none, hspells, hlook.trans hadvances, rfl, hend⟩)
      (fun s s₁ x s₂ values flow s' hmore hx _ hrest p hat => by
        obtain ⟨hat₁, hlook⟩ := look_sound hat hmore
        obtain ⟨found, first, p₁, rfl, hspells, hadvances, hat₂⟩ := next_sound hbody hat₁ hx
        obtain ⟨later, begun, place, hspells', hadvances', hafter⟩ := hrest p₁ hat₂
        exact ⟨first ++ later, begun + 1, place, .next hspells hspells',
          (hlook.trans hadvances).append hadvances', hafter⟩)
      h p hat
    obtain ⟨pieces, begun, place, hspells, hadvances, hafter⟩ := key
    exact ⟨pieces, begun, place, hspells, by simp, hadvances, hafter⟩

theorem bits_cut (pieces : List Piece) :
    (Piece.cut pieces).flatMap Piece.bits = pieces.flatMap Piece.bits := by
  unfold Piece.cut
  split
  · simp [Piece.bits]
  · rfl

/-- A structure spells out its body, an array of them one body behind the other. -/
theorem group_sound (hbody : Follows ctx body spells) {length : Option Length} {certain : Nat}
    {v : Value} {flow : Flow} (hat : At p s)
    (h : group ctx head length certain body s = .ok (v, flow) s') :
    ∃ pieces place, Group.Spells ctx certain spells length p v pieces place ∧
      Advances ctx (pieces.flatMap Piece.bits) s s' ∧ After flow s' place := by
  cases length with
  | none =>
    obtain ⟨⟨found, flow'⟩, s₁, hrun, h⟩ := bind_eq_ok.mp h
    cases h
    obtain ⟨pieces, place, hspells, hadvances, hafter⟩ := hbody hat hrun
    cases place with
    | some p' => exact ⟨pieces, some p', .struct hspells, hadvances, hafter⟩
    | none => exact ⟨_, none, .cut hspells, by rwa [bits_cut], hafter⟩
  | some l =>
    obtain ⟨count, s₁, hc, h⟩ := bind_eq_ok.mp h
    obtain ⟨hcount, questions, rfl⟩ := (PassM.computes_arrayCount ctx s l).eq_ok hc
    rw [hat.env] at hcount
    obtain ⟨⟨values, flow'⟩, s₂, hrun, h⟩ := bind_eq_ok.mp h
    cases h
    obtain ⟨pieces, begun, place, hspells, hbegun, hadvances, hafter⟩ :=
      structs_sound hbody (hat.asking (s.asked ++ questions)) hrun
    have hadvances : Advances ctx _ s _ := hadvances.of_stream_eq rfl rfl
    cases count with
    | some n =>
      obtain ⟨hle, heq⟩ := hbegun n rfl
      exact ⟨_, place, .counted hcount hspells hle heq, by simpa [Piece.bits] using hadvances,
        hafter⟩
    | none =>
      exact ⟨_, place, .unbounded hcount hspells, by simpa [Piece.bits] using hadvances, hafter⟩

/-- A read pass over a layout gives the fields of a record that was in front. -/
theorem fields_sound {l : Layout} (hcustom : l.customUses = []) :
    Follows ctx (fields ctx l) (l.Spells ctx) := by
  induction l with
  | done =>
    intro p s found flow s' hat h
    cases h
    exact ⟨[], some p, ⟨rfl, rfl, rfl⟩, Advances.refl hat.sound, rfl, hat⟩
  | item head decl rest ih =>
    intro p s found flow s' hat h
    rw [Layout.customUses, List.append_eq_nil_iff, Option.toList_eq_nil_iff] at hcustom
    obtain ⟨ends, s₁, hends, h⟩ := bind_eq_ok.mp h
    obtain ⟨hat₁, hlook, hend⟩ := endsBefore_sound hat hends
    cases ends with
    | true =>
      cases h
      exact ⟨[], none, Or.inl ⟨(hend rfl).1, rfl, rfl, rfl⟩, hlook, rfl, (hend rfl).2⟩
    | false =>
      obtain ⟨node, s₂, hitem, h⟩ := bind_eq_ok.mp h
      obtain ⟨⟨more, flow'⟩, s₃, hrest, h⟩ := bind_eq_ok.mp h
      cases h
      obtain ⟨first, p₁, hfirst, hadvances, hat₂⟩ := item_sound hat₁ hcustom.1 hitem
      obtain ⟨later, place, hlater, hadvances', hafter⟩ := ih hcustom.2 hat₂ hrest
      exact ⟨first ++ later, place,
        Or.inr ⟨node, first, p₁, more, later, hfirst, hlater, rfl, rfl⟩,
        (hlook.trans hadvances).append hadvances', hafter⟩
  | group head length body closing rest ihbody ihrest =>
    intro p s found flow s' hat h
    rw [Layout.customUses, List.append_eq_nil_iff] at hcustom
    obtain ⟨ends, s₁, hends, h⟩ := bind_eq_ok.mp h
    obtain ⟨hat₁, hlook, hend⟩ := endsBefore_sound hat hends
    cases ends with
    | true =>
      cases h
      exact ⟨[], none, Or.inl ⟨(hend rfl).1, rfl, rfl, rfl⟩, hlook, rfl, (hend rfl).2⟩
    | false =>
      obtain ⟨⟨v, flow₁⟩, s₂, hgroup, h⟩ := bind_eq_ok.mp h
      obtain ⟨first, place₁, hfirst, hadvances, hafter⟩ :=
        group_sound (ihbody hcustom.1) hat₁ hgroup
      have hadvances := hlook.trans hadvances
      cases flow₁ with
      | stop =>
        cases h
        -- A body that stopped has no place behind it: the record is cut off in this group.
        cases place₁ with
        | some p₁ => cases hafter.1
        | none =>
          exact ⟨first, none, Or.inr ⟨v, first, Or.inl ⟨hfirst, rfl, rfl, rfl⟩⟩, hadvances, hafter⟩
      | goOn =>
        cases place₁ with
        | none => cases hafter.1
        | some p₁ =>
          obtain ⟨⟨more, flow'⟩, s₃, hrest, h⟩ := bind_eq_ok.mp h
          cases h
          obtain ⟨later, place, hlater, hadvances', hafter'⟩ :=
            ihrest hcustom.2 hafter.2 hrest
          exact ⟨first ++ later, place,
            Or.inr ⟨v, first, Or.inr ⟨p₁, more, later, hfirst, hlater, rfl, rfl⟩⟩,
            hadvances.append hadvances', hafter'⟩

end RecordLayout.Decode
