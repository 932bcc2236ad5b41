import RecordLayout.Layout.Listing
import RecordLayout.Proofs.Layout.Supply
import RecordLayout.Proofs.Pass.WriteState

/-!
# What a write leaves

Whatever items a write pass is given, if it succeeds it has written pieces for those it took: every
value in the form of its slot, and zeros for what directives pass over. If it has gone through the
layout these are the pieces of a record. Only a lenient pass stops before.
-/

namespace RecordLayout

/-- The way into a type leaves at most a byte. -/
theorem ElementType.width_le {type : ElementType} {env : Expr.Env} {w : Nat}
    (h : type.width env = .ok w) : w ≤ 8 := by
  cases type with
  | bit a => exact (width_bit h).2
  | fixed _ | text | custom _ _ =>
    cases h
    exact Nat.zero_le 8

/-! ## Records that are broken off -/

/-- The pieces of structures in a row that are broken off in one of them or before one. -/
inductive Elements.Begins (spells : Place → List Field → List Piece → Option Place → Prop)
    (begins : Place → List Piece → Prop) : Place → List Piece → Prop
  | nil {p : Place} : Elements.Begins spells begins p []
  | next {p p₁ : Place} {fields : List Field} {first later : List Piece}
      (one : spells p fields first (some p₁)) (rest : Elements.Begins spells begins p₁ later) :
      Elements.Begins spells begins p (first ++ later)
  | cut {p : Place} {pieces : List Piece} (one : begins p pieces) :
      Elements.Begins spells begins p pieces

/-- The pieces of a structure or an array of them that is broken off. -/
def Group.Begins (spells : Place → List Field → List Piece → Option Place → Prop)
    (begins : Place → List Piece → Prop) (length : Option Length) (p : Place)
    (pieces : List Piece) : Prop :=
  (length = none ∧ begins p pieces) ∨
    ∃ n es, length.isSome = true ∧ Elements.Begins spells begins p es ∧ pieces = .elements n :: es

/-- The pieces of a record of the layout that is broken off before one of its values, or in an array
that others should follow. -/
def Layout.Begins (ctx : PassContext) : Layout → Place → List Piece → Prop
  | done, _, _ => False
  | item head decl rest, p, pieces =>
    pieces = [] ∨ ∃ node first p₁ later,
      decl.Spells ctx head p node first p₁ ∧ rest.Begins ctx p₁ later ∧ pieces = first ++ later
  | group _ length body _ rest, p, pieces =>
    pieces = [] ∨ Group.Begins (body.Spells ctx) (body.Begins ctx) length p pieces ∨
      ∃ v first p₁ later,
        Group.Spells ctx body.certainBits (body.Spells ctx) length p v first (some p₁) ∧
        rest.Begins ctx p₁ later ∧ pieces = first ++ later

/-- Structures in a row are broken off behind the last of them, if others should follow. -/
theorem Elements.Spells.begins
    {spells : Place → List Field → List Piece → Option Place → Prop}
    {begins : Place → List Piece → Prop} {p p' : Place} {values : List Value}
    {pieces : List Piece} {begun : Nat}
    (h : Elements.Spells spells p values pieces begun (some p')) :
    Elements.Begins spells begins p pieces := by
  generalize hplace : some p' = place at h
  induction h with
  | nil => exact .nil
  | next one _ ih => exact .next one (ih hplace)
  | cut | dropped => cases hplace

namespace Encode

variable {ctx : PassContext} {p p' : Place} {s s₁ s' : PassState Feed} {head : Header}
  {type : ElementType} {width : Nat} {pieces : List Piece} {flow : Flow}

/-! ## Values -/

/-- A value that is written is brought into the form of its type, and fits it. -/
theorem element_eq_ok {u : Value} {written : Option Value} {env : Expr.Env}
    (hready : s.stream.writer.Ready ctx.options.bitOrder) (hwidth : type.width env = .ok width)
    (hcustom : ∀ use extra, type ≠ .custom use extra)
    (h : element ctx head width type u s = .ok written s') :
    ∃ v, written = some v ∧ type.normalize width u = some v ∧ type.Fits width v ∧
      WritesOnly ctx (type.spell head.order width v) s s' := by
  have key : ∃ v, type.normalize width u = some v ∧
      (type = .text → Writer.TextFits v.asText) := by
    cases type with
    | custom use extra => exact absurd rfl (hcustom use extra)
    | text =>
      simp only [element] at h
      cases hnormal : ElementType.text.normalize width u with
      | none =>
        rw [hnormal] at h
        cases h
      | some v =>
        rw [hnormal] at h
        obtain ⟨_, s₁, hput, -⟩ := bind_eq_ok.mp h
        obtain ⟨w, hwrite, -⟩ := onWriter_eq_ok hput
        exact ⟨v, rfl, fun _ => Writer.fits_of_writeText hwrite⟩
    | fixed _ | bit _ =>
      simp only [element] at h
      cases hnormal : ElementType.normalize width u _ with
      | none =>
        rw [hnormal] at h
        cases h
      | some v => exact ⟨v, rfl, fun h => by cases h⟩
  obtain ⟨v, hnormal, htext⟩ := key
  have hfits := ElementType.fits_of_normalize (ElementType.width_le hwidth) hnormal htext
  obtain ⟨s₁, helement, hwrites⟩ :=
    element_of_normalize head hready hwidth hnormal hfits
  cases h.symm.trans helement
  exact ⟨v, rfl, hnormal, hfits, hwrites⟩

/-- Elements that were written are normal forms of their values, with the bits that spell them. -/
theorem elements_eq_ok {us : List Value} {env : Expr.Env}
    (hready : s.stream.writer.Ready ctx.options.bitOrder) (hwidth : type.width env = .ok width)
    (hcustom : ∀ use extra, type ≠ .custom use extra)
    (h : elements ctx head width type us s = .ok () s') :
    ∃ vs, us.mapM (type.normalize width) = some vs ∧ (∀ v ∈ vs, type.Fits width v) ∧
      WritesOnly ctx (vs.flatMap fun v => type.spell head.order width v) s s' := by
  induction us generalizing s with
  | nil =>
    cases h
    exact ⟨[], rfl, by simp, WritesOnly.refl hready⟩
  | cons u us ih =>
    obtain ⟨_, s₁, hone, h⟩ := bind_eq_ok.mp h
    obtain ⟨v, -, hnormal, hfits, hwrites⟩ := element_eq_ok hready hwidth hcustom hone
    obtain ⟨vs, hnormals, hall, hwrites'⟩ := ih hwrites.ready h
    refine ⟨v :: vs, by simp [hnormal, hnormals], ?_, ?_⟩
    · rintro x (- | ⟨_, hx⟩)
      · exact hfits
      · exact hall x hx
    · rw [List.flatMap_cons]
      exact hwrites.trans hwrites'

theorem length_of_mapM {f : Value → Option Value} {us vs : List Value} (h : us.mapM f = some vs) :
    vs.length = us.length := by
  induction us generalizing vs with
  | nil =>
    cases h
    rfl
  | cons u us ih =>
    simp only [List.mapM_cons, Option.bind_eq_bind, Option.bind_eq_some_iff, pure] at h
    obtain ⟨v, -, rest, hrest, ⟨⟩⟩ := h
    rw [List.length_cons, List.length_cons, ih hrest]

/-- Single bytes one by one are a byte string. -/
theorem flatMap_spell_of_isByte (hbyte : type.isByte = true) (order : ByteOrder) (vs : List Value) :
    (vs.flatMap fun v => type.spell order width v) =
      Bits.ofBytes (vs.map fun v => .ofNat v.number) := by
  have hone : ∀ v : Value, type.spell order width v = Bits.ofBytes [.ofNat v.number] := by
    intro v
    cases type with
    | fixed type =>
      cases type with
      | byte | ubyte => cases order <;> rfl
      | _ => cases hbyte
    | _ => cases hbyte
  induction vs with
  | nil => rfl
  | cons v vs ih =>
    rw [List.flatMap_cons, ih, hone, List.map_cons]
    simp [Bits.ofBytes]

/-- A length that is checked is the number of values. -/
theorem checkCount_eq_ok {declaration : String} {count : Option Nat} {n : Nat}
    (h : checkCount declaration count n s = .ok () s') :
    s' = s ∧ ∀ m, count = some m → n = m := by
  cases count with
  | none =>
    cases h
    exact ⟨rfl, by simp⟩
  | some m =>
    simp only [checkCount] at h
    split at h
    · rename_i heq
      cases h
      refine ⟨rfl, ?_⟩
      rintro _ ⟨⟩
      exact heq.symm
    · cases h

/-- An array is brought into the form of its slot, has as many elements as its length says, and is
written as it is spelled. -/
def Stores (ctx : PassContext) (slot : Slot) (count : Option Nat) (u : Value)
    (s s' : PassState Feed) : Prop :=
  ∃ v, slot.normalize u = some v ∧ slot.Fits v ∧ (∀ n, count = some n → v.length? = some n) ∧
    WritesOnly ctx (slot.spell v) s s'

/-- Bytes that were written as an array are the bits of the bytes. -/
theorem bytes_eq_ok {declaration : String} {order : ByteOrder} {count : Option Nat}
    {bs : List UInt8} (hready : s.stream.writer.Ready ctx.options.bitOrder)
    (hbyte : type.isByte = true)
    (h : (checkCount declaration count bs.length >>= fun _ =>
      onWriter (Writer.writeBytes bs ctx.options.bitOrder)) s = .ok () s') :
    Stores ctx ⟨order, type, width, true⟩ count (.bytes bs) s s' := by
  obtain ⟨_, s₁, hcheck, hrun⟩ := bind_eq_ok.mp h
  obtain ⟨rfl, hlong⟩ := checkCount_eq_ok hcheck
  obtain ⟨w, hwrite, rfl⟩ := onWriter_eq_ok hrun
  obtain ⟨w', hwrite', hwrites⟩ := Writer.writeBytes_of_ready hready bs
  cases hwrite.symm.trans hwrite'
  refine ⟨.bytes bs, ?_, ?_, ?_, w, rfl, hwrites⟩
  · simp only [Slot.normalize, hbyte]
  · simp only [Slot.Fits, hbyte]
    exact ⟨bs, rfl⟩
  · intro n hn
    rw [Value.length?, hlong n hn]

/-- A list of values that was written as an array is the bits of its values. -/
theorem list_eq_ok {declaration : String} {count : Option Nat} {us : List Value} {env : Expr.Env}
    (hready : s.stream.writer.Ready ctx.options.bitOrder) (hwidth : type.width env = .ok width)
    (hcustom : ∀ use extra, type ≠ .custom use extra)
    (h : (checkCount declaration count us.length >>= fun _ =>
      elements ctx head width type us) s = .ok () s') :
    Stores ctx ⟨head.order, type, width, true⟩ count (.list us) s s' := by
  obtain ⟨_, s₁, hcheck, hrun⟩ := bind_eq_ok.mp h
  obtain ⟨rfl, hlong⟩ := checkCount_eq_ok hcheck
  obtain ⟨vs, hnormals, hall, hwrites⟩ := elements_eq_ok hready hwidth hcustom hrun
  have hlength := length_of_mapM hnormals
  cases hbyte : type.isByte with
  | true =>
    rw [flatMap_spell_of_isByte hbyte] at hwrites
    refine ⟨.bytes (vs.map fun v : Value => .ofNat v.number), ?_, ?_, ?_, hwrites⟩
    · simp only [Slot.normalize, hbyte, hnormals]
      rfl
    · simp only [Slot.Fits, hbyte]
      exact ⟨_, rfl⟩
    · intro n hn
      rw [Value.length?, List.length_map, hlength, hlong n hn]
  | false =>
    refine ⟨.list vs, ?_, ?_, ?_, hwrites⟩
    · simp only [Slot.normalize, hbyte, hnormals]
      rfl
    · simp only [Slot.Fits, hbyte]
      exact ⟨vs, rfl, hall⟩
    · intro n hn
      rw [Value.length?, hlength, hlong n hn]

theorem array_eq_ok {length : Length} {u : Value} (hat : At ctx p s)
    (hcustom : ∀ use extra, type ≠ .custom use extra)
    (h : value ctx head type (some length) u s = .ok () s') :
    ∃ w count questions, type.width (p.env ctx) = .ok w ∧
      ctx.count (p.env ctx) length = .ok count ∧
      Stores ctx ⟨head.order, type, w, true⟩ count u { s with asked := questions } s' := by
  obtain ⟨w, s₁, hw, h⟩ := bind_eq_ok.mp h
  obtain ⟨hwidth, first, rfl⟩ := (PassM.computes_bitWidth ctx s type).eq_ok hw
  rw [hat.env] at hwidth
  have hat₁ := hat.asking (s.asked ++ first)
  obtain ⟨count, s₂, hc, h⟩ := bind_eq_ok.mp h
  obtain ⟨hcount, second, rfl⟩ := (PassM.computes_arrayCount ctx _ length).eq_ok hc
  rw [hat₁.env] at hcount
  have hat₂ := hat₁.asking (s.asked ++ first ++ second)
  refine ⟨w, count, s.asked ++ first ++ second, hwidth, hcount, ?_⟩
  cases hbyte : type.isByte with
  | true =>
    rw [hbyte] at h
    cases u with
    | bytes bs => exact bytes_eq_ok hat₂.ready hbyte h
    | list us => exact list_eq_ok hat₂.ready hwidth hcustom h
    | _ => cases h
  | false =>
    rw [hbyte] at h
    cases u with
    | list us => exact list_eq_ok hat₂.ready hwidth hcustom h
    | _ => cases h

/-! ## Declarations -/

/-- The pass has written these pieces, for the items that it took. -/
structure Leaves (ctx : PassContext) (pieces : List Piece) (s s' : PassState Feed) : Prop where
  adds : Writer.Adds ctx.options.bitOrder (pieces.flatMap Piece.bits) s.stream.writer
    s'.stream.writer
  supplies : Supplies s.stream.items pieces s'.stream.items

theorem Leaves.nil (hready : s.stream.writer.Ready ctx.options.bitOrder) : Leaves ctx [] s s :=
  ⟨(Writer.Writes.refl hready).toAdds, .nil⟩

theorem Leaves.append {first later : List Piece} (h : Leaves ctx first s s₁)
    (h' : Leaves ctx later s₁ s') : Leaves ctx (first ++ later) s s' := by
  refine ⟨?_, h.supplies.append h'.supplies⟩
  rw [List.flatMap_append]
  exact h.adds.trans h'.adds

/-- Numbers and questions do not belong to the stream. -/
theorem Leaves.of_stream_eq {s₂ : PassState Feed} (h : Leaves ctx pieces s s')
    (hs : s.stream = s₁.stream) (hs' : s'.stream = s₂.stream) : Leaves ctx pieces s₁ s₂ :=
  ⟨hs ▸ hs' ▸ h.adds, hs ▸ hs' ▸ h.supplies⟩

/-- What is taken is a value in front of the other items. -/
theorem nextValue_eq_ok {declaration : String} {u : Value}
    (h : nextValue declaration s = .ok u s') :
    ∃ more, s.stream.items = .value u :: more ∧
      s' = { s with stream := { s.stream with items := more } } := by
  have hremaining : remaining s = .ok s.stream.items s := rfl
  rw [nextValue, bind_of_ok hremaining] at h
  cases hitems : s.stream.items with
  | nil =>
    rw [hitems] at h
    cases h
  | cons item more =>
    rw [hitems] at h
    cases item with
    | value v =>
      cases h
      exact ⟨more, rfl, rfl⟩
    | elements n => cases h

/-- Zeros that are written and counted. -/
theorem WritesOnly.passed {n : Nat} (hat : At ctx p s) (questions : List (String × Expr))
    (h : WritesOnly ctx (List.replicate n false) { s with asked := questions } s') :
    At ctx (p.advance (List.replicate n false).length) s' ∧
      Leaves ctx [.passed (List.replicate n false)] s s' := by
  obtain ⟨w, rfl, hw⟩ := h
  refine ⟨hat.wrote hw _ _, ?_, ?_⟩
  · simpa [Piece.bits] using hw.toAdds
  · exact .passed (fun b hb => List.eq_of_mem_replicate hb) .nil

/-- What is written for a value, whose item is taken first. -/
theorem value_eq_ok {length : Option Length} {u : Value} {more : List Item} (hat : At ctx p s)
    (hcustom : ∀ use extra, type ≠ .custom use extra) (hitems : s.stream.items = .value u :: more)
    (h : value ctx head type length u { s with stream := { s.stream with items := more } } =
      .ok () s') :
    ∃ node pieces p', (Decl.value type length).Spells ctx head p node pieces p' ∧
      Leaves ctx pieces s s' ∧ At ctx p' s' := by
  have hat₁ : At ctx p { s with stream := { s.stream with items := more } } :=
    ⟨hat.numbers, hat.position, hat.ready⟩
  cases length with
  | none =>
    obtain ⟨w, s₂, hw, h⟩ := bind_eq_ok.mp h
    obtain ⟨hwidth, questions, rfl⟩ := (PassM.computes_bitWidth ctx _ type).eq_ok hw
    rw [hat₁.env] at hwidth
    obtain ⟨written, s₃, helement, h⟩ := bind_eq_ok.mp h
    obtain ⟨v, rfl, hnormal, hfits, w', rfl, hw'⟩ := element_eq_ok
      (hat₁.asking (s.asked ++ questions)).ready hwidth hcustom helement
    have hat₃ : At ctx (p.advance ((Slot.mk head.order type w false).spell v).length)
        { s with stream := ⟨w', more⟩, asked := s.asked ++ questions } := hat.wrote hw' _ _
    obtain ⟨s₄, hregister, hat₄, hstream⟩ := hat₃.register head.info v
    cases h.symm.trans hregister
    refine ⟨_, _, _, .single hwidth hfits, ⟨?_, ?_⟩, hat₄⟩
    · rw [hstream, List.flatMap_singleton]
      exact hw'.toAdds
    · rw [hstream, hitems]
      exact .value hnormal .nil
  | some length =>
    obtain ⟨w, count, questions, hwidth, hcount, v, hnormal, hfits, hlong, w', rfl, hw'⟩ :=
      array_eq_ok hat₁ hcustom h
    cases count with
    | some n =>
      refine ⟨_, _, _, .counted hwidth hcount (hlong n rfl) hfits, ⟨?_, ?_⟩, hat.wrote hw' _ _⟩
      · simpa [Piece.bits] using hw'.toAdds
      · rw [hitems]
        exact .value hnormal .nil
    | none =>
      refine ⟨_, _, _, .unbounded hwidth hcount hfits, ⟨?_, ?_⟩, hat.wrote hw' _ _⟩
      · simpa [Piece.bits] using hw'.toAdds
      · rw [hitems]
        exact .value hnormal (.ended .nil)

/-- What is written for a declaration are pieces of it. -/
theorem item_eq_ok {decl : Decl} (hat : At ctx p s) (hcustom : decl.customUse = none)
    (h : item ctx head decl s = .ok () s') :
    ∃ node pieces p', decl.Spells ctx head p node pieces p' ∧ Leaves ctx pieces s s' ∧
      At ctx p' s' := by
  cases decl with
  | value type length =>
    have hbuiltin : ∀ use extra, type ≠ .custom use extra := by
      rintro use extra rfl
      cases hcustom
    obtain ⟨u, s₁, hnext, h⟩ := bind_eq_ok.mp h
    obtain ⟨more, hitems, rfl⟩ := nextValue_eq_ok hnext
    exact value_eq_ok hat hbuiltin hitems h
  | computed amount =>
    obtain ⟨n, s₁, hn, h⟩ := bind_eq_ok.mp h
    obtain ⟨hvalue, questions, rfl⟩ := (PassM.computes_amount ctx s amount).eq_ok hn
    rw [hat.env] at hvalue
    obtain ⟨s₂, hregister, hat₂, hstream⟩ :=
      (hat.asking (s.asked ++ questions)).register head.info (.long n)
    cases h.symm.trans hregister
    exact ⟨_, _, _, .computed hvalue, (Leaves.nil hat.ready).of_stream_eq rfl hstream.symm, hat₂⟩
  | align a =>
    obtain ⟨n, s₁, hn, h⟩ := bind_eq_ok.mp h
    obtain ⟨hvalue, questions, rfl⟩ := (PassM.computes_alignment ctx s a).eq_ok hn
    rw [hat.env] at hvalue
    obtain ⟨w, halign, rfl⟩ := onWriter_eq_ok h
    obtain ⟨w', halign', hwrites⟩ := Writer.align_of_ready hat.ready n
    cases halign.symm.trans halign'
    obtain ⟨hat', hleaves⟩ :=
      WritesOnly.passed hat (s.asked ++ questions) ⟨w, rfl, hwrites⟩
    refine ⟨_, _, _, .align hvalue ?_, hleaves, hat'⟩
    rw [List.length_replicate, hat.position]
  | skip a =>
    obtain ⟨n, s₁, hn, h⟩ := bind_eq_ok.mp h
    obtain ⟨hvalue, questions, rfl⟩ := (PassM.computes_skipCount ctx s a).eq_ok hn
    rw [hat.env] at hvalue
    obtain ⟨w, hskip, rfl⟩ := onWriter_eq_ok h
    obtain ⟨w', hskip', hwrites⟩ := Writer.skipBytes_of_ready hat.ready n
    cases hskip.symm.trans hskip'
    obtain ⟨hat', hleaves⟩ :=
      WritesOnly.passed hat (s.asked ++ questions) ⟨w, rfl, hwrites⟩
    exact ⟨_, _, _, .skip hvalue List.length_replicate, hleaves, hat'⟩
  | reset =>
    obtain ⟨w, hreset, rfl⟩ := onWriter_eq_ok h
    obtain ⟨w', hreset', hadds, hposition⟩ := Writer.reset_of_ready hat.ready
    cases hreset.symm.trans hreset'
    have hlong : (List.replicate (Bits.toByte p.position) false).length = Bits.toByte p.position :=
      List.length_replicate
    refine ⟨_, _, _, .reset hlong, ⟨?_, ?_⟩, hat.numbers, hposition, hadds.ready⟩
    · rw [hat.position] at hadds
      simpa [Piece.bits] using hadds
    · exact .passed (fun b hb => List.eq_of_mem_replicate hb) .nil

/-! ## Structures -/

/-- How a part of the layout leaves the pass: at a place that the part leads to, or, if the pass is
lenient, at the end, with the part broken off. -/
def Leads (ctx : PassContext) (reaches : Place → Prop) (begins : Prop) (s : PassState Feed) :
    Flow → Prop
  | .goOn => ∃ p, reaches p ∧ At ctx p s
  | .stop => ctx.options.lenient = true ∧ begins

theorem Leads.imp {reaches reaches' : Place → Prop} {begins begins' : Prop}
    (h : Leads ctx reaches begins s flow) (hreaches : ∀ p, reaches p → reaches' p)
    (hbegins : begins → begins') : Leads ctx reaches' begins' s flow := by
  cases flow with
  | goOn =>
    obtain ⟨p, hp, hat⟩ := h
    exact ⟨p, hreaches p hp, hat⟩
  | stop => exact ⟨h.1, hbegins h.2⟩

/-- What an operation writes are the pieces of the relation, or the first of them. -/
def Makes (ctx : PassContext) (m : PassM Feed Flow)
    (spells : Place → List Field → List Piece → Option Place → Prop)
    (begins : Place → List Piece → Prop) : Prop :=
  ∀ {p s flow s'}, At ctx p s → m s = .ok flow s' →
    ∃ pieces, Leaves ctx pieces s s' ∧
      Leads ctx (fun p' => ∃ fields, spells p fields pieces (some p')) (begins p pieces) s' flow

variable {m : PassM Feed Flow} {spells : Place → List Field → List Piece → Option Place → Prop}
  {begins : Place → List Piece → Prop}

/-- As many structures as were told, by induction over their number. -/
theorem times_eq_ok (hbody : Makes ctx m spells begins) {n : Nat} (hat : At ctx p s)
    (h : times m n s = .ok flow s') :
    ∃ pieces, Leaves ctx pieces s s' ∧
      Leads ctx (fun p' => ∃ values, values.length = n ∧
          Elements.Spells spells p values pieces n (some p'))
        (Elements.Begins spells begins p pieces) s' flow := by
  induction n generalizing p s with
  | zero =>
    cases h
    exact ⟨[], .nil hat.ready, p, ⟨[], rfl, .nil⟩, hat⟩
  | succ n ih =>
    obtain ⟨flow₁, s₁, hrun, h⟩ := bind_eq_ok.mp h
    obtain ⟨first, hleaves, hleads⟩ := hbody hat hrun
    cases flow₁ with
    | stop =>
      cases h
      exact ⟨first, hleaves, hleads.1, .cut hleads.2⟩
    | goOn =>
      obtain ⟨p₁, ⟨fields, one⟩, hat₁⟩ := hleads
      obtain ⟨later, hleaves', hleads'⟩ := ih hat₁ h
      refine ⟨first ++ later, hleaves.append hleaves', hleads'.imp ?_ (.next one)⟩
      rintro p' ⟨values, hlength, rest⟩
      exact ⟨.struct fields :: values, by rw [List.length_cons, hlength], .next one rest⟩

/-- Structures up to the last item, by induction over the items that are left. -/
theorem whileItems_eq_ok (hbody : Makes ctx m spells begins) {idle : Error} (hat : At ctx p s)
    (h : whileItems idle m s = .ok flow s') :
    ∃ pieces, Leaves ctx pieces s s' ∧
      Leads ctx (fun p' => ∃ values, Elements.Spells spells p values pieces values.length (some p'))
        (Elements.Begins spells begins p pieces) s' flow := by
  induction hlength : s.stream.items.length using Nat.strongRecOn generalizing p s with
  | ind n ih =>
  rw [whileItems] at h
  split at h
  · cases h
    exact ⟨[], .nil hat.ready, p, ⟨[], .nil⟩, hat⟩
  · cases hrun : m s with
    | error e s₁ =>
      rw [hrun] at h
      cases h
    | ok flow₁ s₁ =>
      rw [hrun] at h
      obtain ⟨first, hleaves, hleads⟩ := hbody hat hrun
      cases flow₁ with
      | stop =>
        cases h
        exact ⟨first, hleaves, hleads.1, .cut hleads.2⟩
      | goOn =>
        simp only at h
        split at h
        · rename_i hless
          obtain ⟨p₁, ⟨fields, one⟩, hat₁⟩ := hleads
          obtain ⟨later, hleaves', hleads'⟩ := ih _ (hlength ▸ hless) hat₁ h rfl
          refine ⟨first ++ later, hleaves.append hleaves', hleads'.imp ?_ (.next one)⟩
          rintro p' ⟨values, rest⟩
          exact ⟨.struct fields :: values, .next one rest⟩
        · cases h

/-- Either the items tell a number, which is taken, or they go on with something else. -/
theorem toldCount_eq_ok {told : Option Nat} (h : toldCount s = .ok told s') :
    (∃ n more, told = some n ∧ s.stream.items = .elements n :: more ∧
        s' = { s with stream := { s.stream with items := more } }) ∨
      (told = none ∧ s' = s ∧ ∀ n more, s.stream.items ≠ .elements n :: more) := by
  have hremaining : remaining s = .ok s.stream.items s := rfl
  rw [toldCount, bind_of_ok hremaining] at h
  cases hitems : s.stream.items with
  | nil =>
    rw [hitems] at h
    cases h
    exact Or.inr ⟨rfl, rfl, fun n more h => by cases h⟩
  | cons item more =>
    rw [hitems] at h
    cases item with
    | value v =>
      cases h
      exact Or.inr ⟨rfl, rfl, fun n more h => by cases h⟩
    | elements n =>
      cases h
      exact Or.inl ⟨n, more, rfl, rfl, rfl⟩

/-- The mark in front of the elements of an array, told or not. -/
theorem Leaves.behind_mark {s₂ : PassState Feed} {told : Option Nat} {n : Nat}
    {questions : List (String × Expr)} (h : Leaves ctx pieces s₂ s')
    (htold : toldCount { s with asked := questions } = .ok told s₂)
    (hn : ∀ m, told = some m → m = n) : Leaves ctx (.elements n :: pieces) s s' := by
  rcases toldCount_eq_ok htold with ⟨m, more, rfl, hitems, rfl⟩ | ⟨-, rfl, hother⟩
  · cases hn m rfl
    refine ⟨h.adds, ?_⟩
    rw [show s.stream.items = .elements n :: more from hitems]
    exact .told h.supplies
  · exact ⟨h.adds, .untold hother h.supplies⟩

theorem At.telling {s₂ : PassState Feed} {told : Option Nat} (h : At ctx p s)
    (htold : toldCount s = .ok told s₂) : At ctx p s₂ := by
  rcases toldCount_eq_ok htold with ⟨m, more, -, -, rfl⟩ | ⟨-, rfl, -⟩
  · exact ⟨h.numbers, h.position, h.ready⟩
  · exact h

section

variable {length : Length} {told : Option Nat} {n : Nat} {s₂ : PassState Feed}
  {questions : List (String × Expr)}

theorem begins_of_elements (h : Elements.Begins spells begins p pieces) :
    Group.Begins spells begins (some length) p (.elements n :: pieces) :=
  Or.inr ⟨_, _, rfl, h, rfl⟩

/-- An array of a length, whether the items tell the same number or none. -/
theorem counted_eq_ok (hbody : Makes ctx m spells begins) (certain : Nat) (hat : At ctx p s)
    (hcount : ctx.count (p.env ctx) length = .ok (some n))
    (htold : toldCount { s with asked := questions } = .ok told s₂)
    (hn : ∀ k, told = some k → k = n) (h : times m n s₂ = .ok flow s') :
    ∃ pieces, Leaves ctx pieces s s' ∧
      Leads ctx (fun p' => ∃ v, Group.Spells ctx certain spells (some length) p v pieces (some p'))
        (Group.Begins spells begins (some length) p pieces) s' flow := by
  obtain ⟨pieces, hleaves, hleads⟩ := times_eq_ok hbody ((hat.asking questions).telling htold) h
  refine ⟨_, hleaves.behind_mark htold hn, hleads.imp ?_ begins_of_elements⟩
  rintro p' ⟨values, rfl, all⟩
  exact ⟨.list values, .counted hcount all (Nat.le_refl _) fun _ => rfl⟩

/-- An array that is broken off, since the items tell less than its length. -/
theorem short_eq_ok (hbody : Makes ctx m spells begins) (hat : At ctx p s)
    (htold : toldCount { s with asked := questions } = .ok (some n) s₂)
    (h : times m n s₂ = .ok flow s') :
    ∃ pieces, Leaves ctx pieces s s' ∧ Group.Begins spells begins (some length) p pieces := by
  obtain ⟨pieces, hleaves, hleads⟩ := times_eq_ok hbody ((hat.asking questions).telling htold) h
  refine ⟨_, hleaves.behind_mark (n := n) htold (by simp), begins_of_elements ?_⟩
  cases flow with
  | stop => exact hleads.2
  | goOn =>
    obtain ⟨p', ⟨values, -, all⟩, -⟩ := hleads
    exact all.begins

/-- An array without a length, of as many elements as the items tell or as there are. -/
theorem unbounded_eq_ok (certain : Nat) (hcount : ctx.count (p.env ctx) length = .ok none)
    (htold : toldCount { s with asked := questions } = .ok told s₂)
    (hleaves : Leaves ctx pieces s₂ s')
    (hleads : Leads ctx
      (fun p' => ∃ values, (∀ k, told = some k → k = values.length) ∧
        Elements.Spells spells p values pieces values.length (some p'))
      (Elements.Begins spells begins p pieces) s' flow) :
    ∃ pieces, Leaves ctx pieces s s' ∧
      Leads ctx (fun p' => ∃ v, Group.Spells ctx certain spells (some length) p v pieces (some p'))
        (Group.Begins spells begins (some length) p pieces) s' flow := by
  cases flow with
  | stop =>
    refine ⟨_, hleaves.behind_mark (n := told.getD 0) htold ?_, hleads.1,
      begins_of_elements hleads.2⟩
    rintro k rfl
    rfl
  | goOn =>
    obtain ⟨p', ⟨values, hn, all⟩, hat'⟩ := hleads
    have hmarked := hleaves.behind_mark htold hn
    refine ⟨_, ⟨?_, hmarked.supplies.append (.ended .nil)⟩, p',
      ⟨.list values, .unbounded hcount all⟩, hat'⟩
    simpa [Piece.bits] using hmarked.adds

end

/-- A structure that was written has the pieces of its body, an array of them one body behind the
other. -/
theorem group_eq_ok (hbody : Makes ctx m spells begins) (certain : Nat) {length : Option Length}
    (hat : At ctx p s) (h : group ctx head length m s = .ok flow s') :
    ∃ pieces, Leaves ctx pieces s s' ∧
      Leads ctx (fun p' => ∃ v, Group.Spells ctx certain spells length p v pieces (some p'))
        (Group.Begins spells begins length p pieces) s' flow := by
  cases length with
  | none =>
    obtain ⟨pieces, hleaves, hleads⟩ := hbody hat h
    refine ⟨pieces, hleaves, hleads.imp ?_ fun hbegins => Or.inl ⟨rfl, hbegins⟩⟩
    rintro p' ⟨fields, one⟩
    exact ⟨.struct fields, .struct one⟩
  | some l =>
    obtain ⟨count, s₁, hc, h⟩ := bind_eq_ok.mp h
    obtain ⟨hcount, questions, rfl⟩ := (PassM.computes_arrayCount ctx s l).eq_ok hc
    rw [hat.env] at hcount
    obtain ⟨told, s₂, htold, h⟩ := bind_eq_ok.mp h
    have hat₂ := (hat.asking (s.asked ++ questions)).telling htold
    cases count with
    | some n =>
      cases told with
      | none => exact counted_eq_ok hbody certain hat hcount htold (by simp) h
      | some supplied =>
        simp only at h
        split at h
        · rename_i heq
          subst heq
          exact counted_eq_ok hbody certain hat hcount htold (by simp) h
        · split at h
          · rename_i hless
            obtain ⟨flow', s₃, hrun, h⟩ := bind_eq_ok.mp h
            cases h
            obtain ⟨pieces, hleaves, hbegins⟩ := short_eq_ok hbody hat htold hrun
            exact ⟨pieces, hleaves, (Bool.and_eq_true _ _ ▸ hless).1, hbegins⟩
          · cases h
    | none =>
      cases told with
      | some n =>
        obtain ⟨pieces, hleaves, hleads⟩ := times_eq_ok hbody hat₂ h
        refine unbounded_eq_ok certain hcount htold hleaves (hleads.imp ?_ id)
        rintro p' ⟨values, rfl, all⟩
        exact ⟨values, by simp, all⟩
      | none =>
        obtain ⟨pieces, hleaves, hleads⟩ := whileItems_eq_ok hbody hat₂ h
        refine unbounded_eq_ok certain hcount htold hleaves (hleads.imp ?_ id)
        rintro p' ⟨values, all⟩
        exact ⟨values, by simp, all⟩

/-- What a write pass leaves is a record of the layout, or a part of one that is broken off. -/
theorem fields_eq_ok {l : Layout} (hcustom : l.customUses = []) :
    Makes ctx (fields ctx l) (l.Spells ctx) (l.Begins ctx) := by
  induction l with
  | done =>
    intro p s flow s' hat h
    cases h
    exact ⟨[], .nil hat.ready, p, ⟨[], rfl, rfl, rfl⟩, hat⟩
  | item head decl rest ih =>
    intro p s flow s' hat h
    rw [Layout.customUses, List.append_eq_nil_iff, Option.toList_eq_nil_iff] at hcustom
    obtain ⟨ends, s₁, hends, h⟩ := bind_eq_ok.mp h
    -- The look at the items changes nothing and never fails.
    cases hends
    cases hstop : ctx.options.lenient && s.stream.items.isEmpty && decl.kind.holdsValue with
    | true =>
      rw [hstop] at h
      cases h
      simp only [Bool.and_eq_true] at hstop
      exact ⟨[], .nil hat.ready, hstop.1.1, Or.inl rfl⟩
    | false =>
      rw [hstop] at h
      obtain ⟨_, s₁, hitem, h⟩ := bind_eq_ok.mp h
      obtain ⟨node, first, p₁, hdecl, hleaves, hat₁⟩ := item_eq_ok hat hcustom.1 hitem
      obtain ⟨later, hleaves', hleads⟩ := ih hcustom.2 hat₁ h
      refine ⟨first ++ later, hleaves.append hleaves', hleads.imp ?_ fun hbegins =>
        Or.inr ⟨node, first, p₁, later, hdecl, hbegins, rfl⟩⟩
      rintro p' ⟨more, hmore⟩
      exact ⟨_, Or.inr ⟨node, first, p₁, more, later, hdecl, hmore, rfl, rfl⟩⟩
  | group head length body closing rest ihbody ihrest =>
    intro p s flow s' hat h
    rw [Layout.customUses, List.append_eq_nil_iff] at hcustom
    obtain ⟨ends, s₁, hends, h⟩ := bind_eq_ok.mp h
    cases hends
    cases hstop : ctx.options.lenient && s.stream.items.isEmpty && body.holdsValue with
    | true =>
      rw [hstop] at h
      cases h
      simp only [Bool.and_eq_true] at hstop
      exact ⟨[], .nil hat.ready, hstop.1.1, Or.inl rfl⟩
    | false =>
      rw [hstop] at h
      obtain ⟨flow₁, s₁, hgroup, h⟩ := bind_eq_ok.mp h
      obtain ⟨first, hleaves, hleads⟩ :=
        group_eq_ok (ihbody hcustom.1) body.certainBits hat hgroup
      cases flow₁ with
      | stop =>
        cases h
        exact ⟨first, hleaves, hleads.1, Or.inr (Or.inl hleads.2)⟩
      | goOn =>
        obtain ⟨p₁, ⟨v, hspells⟩, hat₁⟩ := hleads
        obtain ⟨later, hleaves', hleads'⟩ := ihrest hcustom.2 hat₁ h
        refine ⟨first ++ later, hleaves.append hleaves', hleads'.imp ?_ fun hbegins =>
          Or.inr (Or.inr ⟨v, first, p₁, later, hspells, hbegins, rfl⟩)⟩
        rintro p' ⟨more, hmore⟩
        exact ⟨_, Or.inr ⟨v, first, Or.inr ⟨p₁, more, later, hspells, hmore, rfl, rfl⟩⟩⟩

end Encode

end RecordLayout
