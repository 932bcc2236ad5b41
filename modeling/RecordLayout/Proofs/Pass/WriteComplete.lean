import RecordLayout.Proofs.Layout.Rewriting
import RecordLayout.Proofs.Pass.WriteState

/-!
# Every record of a layout is written

A write pass that is given the items of a record succeeds. It writes the values of the record as
they are spelled and zeros for what directives pass over; only lost bits are not written, since the
pass ends where the items do.
-/

namespace RecordLayout

namespace Encode

variable {ctx : PassContext} {p p' : Place} {place : Option Place} {s s' : PassState Feed}
  {head : Header} {type : ElementType} {width : Nat} {v : Value} {pieces : List Piece}
  {more : List Item}

/-! ## Values -/

theorem nextValue_of_cons (h : s.stream.items = .value v :: more) (declaration : String) :
    nextValue declaration s =
      .ok v { s with stream := { s.stream with items := more } } := by
  have hremaining : remaining s = .ok s.stream.items s := rfl
  rw [nextValue, bind_of_ok hremaining, h]
  rfl

/-- Values that their type takes are written as its elements. -/
theorem elements_of_takes (head : Header) {env : Expr.Env} {us vs : List Value}
    (hready : s.stream.writer.Ready ctx.options.bitOrder) (hwidth : type.width env = .ok width)
    (htakes : List.Forall₂ (fun u v => type.Takes width u v) us vs) :
    ∃ s', elements ctx head width type us s = .ok () s' ∧
      WritesOnly ctx (vs.flatMap fun v => type.spell head.order width v) s s' := by
  induction htakes generalizing s with
  | nil => exact ⟨s, rfl, WritesOnly.refl hready⟩
  | @cons u v us vs hone _ ih =>
    obtain ⟨s₁, helement, hwrites⟩ := element_of_normalize head hready hwidth hone.1 hone.2
    obtain ⟨s₂, hrest, hwrites'⟩ := ih hwrites.ready
    refine ⟨s₂, ?_, ?_⟩
    · rw [elements, bind_of_ok helement]
      exact hrest
    · rw [List.flatMap_cons]
      exact hwrites.trans hwrites'

theorem checkCount_of_eq {count : Option Nat} {n : Nat} (h : ∀ m, count = some m → n = m)
    (declaration : String) : checkCount declaration count n s = .ok () s := by
  cases count with
  | none => rfl
  | some m => simp [checkCount, h m rfl]

/-- The elements of an array that its slot takes are written. -/
theorem array_of_takes {length : Length} {count : Option Nat} {u : Value} (hat : At ctx p s)
    (hwidth : type.width (p.env ctx) = .ok width)
    (hcount : ctx.count (p.env ctx) length = .ok count)
    (hlong : ∀ n, count = some n → v.length? = some n)
    (htakes : (Slot.mk head.order type width true).Takes u v) :
    ∃ s' questions, value ctx head type (some length) u s = .ok () s' ∧
      WritesOnly ctx ((Slot.mk head.order type width true).spell v)
        { s with asked := questions } s' := by
  obtain ⟨first, hw⟩ := (PassM.computes_bitWidth ctx s type).of_ok (by rw [hat.env, hwidth])
  have hat₁ := hat.asking (s.asked ++ first)
  obtain ⟨second, hc⟩ := (PassM.computes_arrayCount ctx
    { s with asked := s.asked ++ first } length).of_ok (by rw [hat₁.env, hcount])
  have hat₂ := hat₁.asking (s.asked ++ first ++ second)
  simp only [value]
  cases hbyte : type.isByte with
  | true =>
    simp only [Slot.Takes, hbyte] at htakes
    obtain ⟨bs, rfl, rfl⟩ := htakes
    obtain ⟨w, hwrite, hwrites⟩ := Writer.writeBytes_of_ready hat₂.ready bs
    refine ⟨_, s.asked ++ first ++ second, ?_, w, rfl, hwrites⟩
    refine (bind_of_ok hw).trans ((bind_of_ok hc).trans ?_)
    refine (bind_of_ok (checkCount_of_eq (fun m hm => ?_) _)).trans (onWriter_of_ok hwrite)
    exact Option.some.inj (hlong m hm)
  | false =>
    simp only [Slot.Takes, hbyte] at htakes
    obtain ⟨us, vs, rfl, rfl, hall⟩ := htakes
    obtain ⟨s', hwrite, hwrites⟩ := elements_of_takes head hat₂.ready hwidth hall
    refine ⟨s', s.asked ++ first ++ second, ?_, hwrites⟩
    refine (bind_of_ok hw).trans ((bind_of_ok hc).trans ?_)
    refine (bind_of_ok (checkCount_of_eq (fun m hm => ?_) _)).trans hwrite
    rw [hall.length_eq]
    exact Option.some.inj (hlong m hm)

/-! ## Declarations -/

theorem WritesOnly.puts_item {questions : List (String × Expr)} {bits : List Bool} {item : Item}
    {s₁ : PassState Feed} (hat : At ctx p s) (hitems : s.stream.items = item :: more)
    (hs₁ : s₁ = { s with stream := { s.stream with items := more } })
    (h : WritesOnly ctx bits { s₁ with asked := questions } s') :
    At ctx (p.advance bits.length) s' ∧ Puts ctx bits [item] s s' := by
  subst hs₁
  obtain ⟨w, rfl, hw⟩ := h
  exact ⟨hat.wrote hw _ _, hw.toAdds, hitems⟩

/-- Pieces that are written one after the other. -/
theorem Puts.append {first later : List Piece} {s₁ : PassState Feed}
    (h : Puts ctx (first.flatMap Piece.written) (first.flatMap Piece.items) s s₁)
    (h' : Puts ctx (later.flatMap Piece.written) (later.flatMap Piece.items) s₁ s') :
    Puts ctx ((first ++ later).flatMap Piece.written) ((first ++ later).flatMap Piece.items)
      s s' := by
  rw [List.flatMap_append, List.flatMap_append]
  exact h.trans h'

theorem Puts.items_left {bits : List Bool} {taken : List Item} (h : Puts ctx bits taken s s')
    (hitems : s.stream.items = taken ++ more) : s'.stream.items = more :=
  List.append_cancel_left (h.items.symm.trans hitems)

theorem At.taking (h : At ctx p s) (items : List Item) :
    At ctx p { s with stream := { s.stream with items := items } } :=
  ⟨h.numbers, h.position, h.ready⟩

/-- A declaration is written that takes its items from the pieces of another record. -/
theorem item_of_becomes {decl : Decl} {node : Option Field} {supplied : List Piece}
    (h : decl.Spells ctx head p node pieces p')
    (hbecomes : List.Forall₂ Piece.Becomes supplied pieces) (hat : At ctx p s)
    (hitems : s.stream.items = supplied.flatMap Piece.items ++ more) :
    ∃ s', item ctx head decl s = .ok () s' ∧
      Puts ctx (pieces.flatMap Piece.written) (supplied.flatMap Piece.items) s s' ∧
      At ctx p' s' := by
  cases h with
  | @single type w v _ hwidth hfits =>
    obtain _ | ⟨@⟨_, u, _, htakes⟩, ⟨⟩⟩ := hbecomes
    have hitems : s.stream.items = .value u :: more := by simpa [Piece.items] using hitems
    have hat₁ := hat.taking more
    obtain ⟨questions, hw⟩ := (PassM.computes_bitWidth ctx
      { s with stream := { s.stream with items := more } } type).of_ok (by rw [hat₁.env, hwidth])
    obtain ⟨hnormal, hfits⟩ : type.Takes w u v := htakes
    obtain ⟨s₂, helement, hwrites⟩ := element_of_normalize head
      (hat₁.asking (s.asked ++ questions)).ready hwidth hnormal hfits
    obtain ⟨hat₂, hputs⟩ := hwrites.puts_item hat hitems rfl
    obtain ⟨s₃, hregister, hat₃, hstream⟩ := hat₂.register head.info v
    refine ⟨s₃, ?_, ?_, hat₃⟩
    · refine (bind_of_ok (nextValue_of_cons hitems _)).trans ((bind_of_ok hw).trans ?_)
      exact (bind_of_ok helement).trans hregister
    · have hputs : Puts ctx ((Slot.mk head.order type w false).spell v) [.value u] s s₃ :=
        hputs.of_stream_eq rfl hstream.symm
      simpa [Piece.written, Piece.items] using hputs
  | @counted type length w n v _ hwidth hcount hlong hfits =>
    obtain _ | ⟨@⟨_, u, _, htakes⟩, ⟨⟩⟩ := hbecomes
    have hitems : s.stream.items = .value u :: more := by simpa [Piece.items] using hitems
    obtain ⟨s₂, questions, hvalue, hwrites⟩ := array_of_takes (hat.taking more) hwidth hcount
      (by simpa using hlong) htakes
    obtain ⟨hat₂, hputs⟩ := hwrites.puts_item hat hitems rfl
    refine ⟨s₂, (bind_of_ok (nextValue_of_cons hitems _)).trans hvalue, ?_, hat₂⟩
    simpa [Piece.written, Piece.items] using hputs
  | @unbounded type length w v _ hwidth hcount hfits =>
    obtain _ | ⟨@⟨_, u, _, htakes⟩, _ | ⟨⟨⟩, ⟨⟩⟩⟩ := hbecomes
    have hitems : s.stream.items = .value u :: more := by simpa [Piece.items] using hitems
    obtain ⟨s₂, questions, hvalue, hwrites⟩ := array_of_takes (hat.taking more) hwidth hcount
      (by simp) htakes
    obtain ⟨hat₂, hputs⟩ := hwrites.puts_item hat hitems rfl
    refine ⟨s₂, (bind_of_ok (nextValue_of_cons hitems _)).trans hvalue, ?_, hat₂⟩
    simpa [Piece.written, Piece.items] using hputs
  | @computed amount n _ hvalue =>
    -- A computed field takes no item and puts nothing; only its number is kept.
    cases hbecomes
    obtain ⟨questions, hn⟩ := (PassM.computes_amount ctx s amount).of_ok (by rw [hat.env, hvalue])
    obtain ⟨s₂, hregister, hat₂, hstream⟩ :=
      (hat.asking (s.asked ++ questions)).register head.info (.long n)
    exact ⟨s₂, (bind_of_ok hn).trans hregister,
      (Puts.refl hat.ready).of_stream_eq rfl hstream.symm, hat₂⟩
  | @align a n bits _ hvalue hlong =>
    obtain _ | ⟨⟨⟩, ⟨⟩⟩ := hbecomes
    obtain ⟨questions, hn⟩ := (PassM.computes_alignment ctx s a).of_ok (by rw [hat.env, hvalue])
    obtain ⟨w, halign, hwrites⟩ := Writer.align_of_ready hat.ready n
    rw [hat.position, ← hlong] at hwrites
    have honly : WritesOnly ctx _ { s with asked := s.asked ++ questions } _ := ⟨w, rfl, hwrites⟩
    obtain ⟨hat₂, hputs⟩ := honly.puts hat
    rw [List.length_replicate] at hat₂
    refine ⟨_, (bind_of_ok hn).trans (onWriter_of_ok halign), ?_, hat₂⟩
    simpa [Piece.written, Piece.items] using hputs
  | @skip a n bits _ hvalue hlong =>
    obtain _ | ⟨⟨⟩, ⟨⟩⟩ := hbecomes
    obtain ⟨questions, hn⟩ := (PassM.computes_skipCount ctx s a).of_ok (by rw [hat.env, hvalue])
    obtain ⟨w, hskip, hwrites⟩ := Writer.skipBytes_of_ready hat.ready n
    rw [← hlong] at hwrites
    have honly : WritesOnly ctx _ { s with asked := s.asked ++ questions } _ := ⟨w, rfl, hwrites⟩
    obtain ⟨hat₂, hputs⟩ := honly.puts hat
    rw [List.length_replicate] at hat₂
    refine ⟨_, (bind_of_ok hn).trans (onWriter_of_ok hskip), ?_, hat₂⟩
    simpa [Piece.written, Piece.items] using hputs
  | @reset bits _ hlong =>
    obtain _ | ⟨⟨⟩, ⟨⟩⟩ := hbecomes
    obtain ⟨w, hreset, hadds, hposition⟩ := Writer.reset_of_ready hat.ready
    rw [hat.position, ← hlong] at hadds
    -- Behind a reset the place is the first one again, whatever was put before.
    refine ⟨_, onWriter_of_ok hreset, ⟨?_, ?_⟩, ⟨hat.numbers, hposition, hadds.ready⟩⟩
    · simpa [Piece.written] using hadds
    · simp [Piece.items]

/-- The items of pieces that spell a declaration are written as its bits. -/
theorem item_of_spells {decl : Decl} {node : Option Field}
    (h : decl.Spells ctx head p node pieces p') (hsurvive : ∀ e ∈ pieces, e.Survives)
    (hat : At ctx p s) (hitems : s.stream.items = pieces.flatMap Piece.items ++ more) :
    ∃ s', item ctx head decl s = .ok () s' ∧
      Puts ctx (pieces.flatMap Piece.written) (pieces.flatMap Piece.items) s s' ∧
      At ctx p' s' :=
  item_of_becomes h (h.becomes_self hsurvive) hat hitems

/-- What was read of a declaration is written, and the pass comes to the same place. -/
theorem item_again {decl : Decl} {node : Option Field} (h : decl.Spells ctx head p node pieces p')
    (hat : At ctx p s) (hitems : s.stream.items = pieces.flatMap Piece.items ++ more) :
    ∃ s', item ctx head decl s = .ok () s' ∧ s'.stream.items = more ∧ At ctx p' s' := by
  obtain ⟨node', pieces', hspells, hbecomes⟩ := h.exists_becomes
  obtain ⟨s', hitem, hputs, hat'⟩ := item_of_becomes hspells hbecomes hat hitems
  exact ⟨s', hitem, hputs.items_left hitems, hat'⟩

/-! ## Structures -/

/-- Where a part of the layout leaves the pass: at the place behind it, or where the record ends.
Only an unbounded array may end there unnoticed. -/
def After (ctx : PassContext) (endless : Bool) (flow : Flow) (s : PassState Feed) :
    Option Place → Prop
  | some p => flow = .goOn ∧ At ctx p s
  | none => flow = .stop ∨ endless = true

/-- What may end unnoticed may do so as a part of what may. -/
theorem After.mono {endless endless' : Bool} {flow : Flow} (h : After ctx endless flow s place)
    (himp : endless = true → endless' = true) : After ctx endless' flow s place := by
  cases place with
  | some p => exact h
  | none => exact h.imp_right himp

/-- What is spelled as the relation says is written by an operation. -/
def Writes (ctx : PassContext) (m : PassM Feed Flow) (endless : Bool)
    (spells : Place → List Field → List Piece → Option Place → Prop) : Prop :=
  ∀ {p s fields pieces place more}, spells p fields pieces place →
    (∀ e ∈ pieces, e.Survives) → At ctx p s →
    s.stream.items = pieces.flatMap Piece.items ++ more → (place = none → more = []) →
    ∃ flow s', m s = .ok flow s' ∧
      Puts ctx (pieces.flatMap Piece.written) (pieces.flatMap Piece.items) s s' ∧
      After ctx endless flow s' place

variable {spells : Place → List Field → List Piece → Option Place → Prop} {m : PassM Feed Flow}

/-- As many structures are written as the items tell. Where the record ends in one of them the pass
stops, unless that one is left out. -/
theorem structs_of_spells (hbody : Writes ctx m false spells) {values : List Value} {begun : Nat}
    (h : Elements.Spells spells p values pieces begun place)
    (hsurvive : ∀ e ∈ pieces, e.Survives) (hat : At ctx p s)
    (hitems : s.stream.items = pieces.flatMap Piece.items ++ more)
    (hmore : place = none → more = []) :
    ∃ flow s', times m values.length s = .ok flow s' ∧
      Puts ctx (pieces.flatMap Piece.written) (pieces.flatMap Piece.items) s s' ∧
      After ctx (decide (values.length < begun)) flow s' place ∧
      (place.isSome = true → values.length = begun) ∧ values.length ≤ begun := by
  induction h generalizing s with
  | nil => exact ⟨.goOn, s, rfl, Puts.refl hat.ready, ⟨rfl, hat⟩, fun _ => rfl, Nat.le_refl 0⟩
  | @next p p₁ fields first later values begun place one rest ih =>
    rw [List.flatMap_append, List.append_assoc] at hitems
    obtain ⟨flow₁, s₁, hrun, hputs, rfl, hat₁⟩ := hbody one
      (fun e he => hsurvive e (List.mem_append_left later he)) hat hitems (fun h => by cases h)
    obtain ⟨flow, s₂, hrest, hputs', hafter, heq, hle⟩ := ih
      (fun e he => hsurvive e (List.mem_append_right first he)) hat₁ (hputs.items_left hitems)
      hmore
    refine ⟨flow, s₂, ?_, hputs.append hputs', ?_, ?_, ?_⟩
    · rw [List.length_cons, times, bind_of_ok hrun]
      exact hrest
    · simpa using hafter
    · simpa using heq
    · simpa using hle
  | @cut p fields pieces one any =>
    obtain ⟨flow, s₁, hrun, hputs, hafter⟩ := hbody one hsurvive hat hitems hmore
    have hstop : flow = .stop := by simpa [After] using hafter
    subst hstop
    refine ⟨.stop, s₁, ?_, hputs, Or.inl rfl, fun _ => rfl, Nat.le_refl 1⟩
    rw [List.length_singleton, times, bind_of_ok hrun]
    rfl
  | @dropped p pieces one =>
    refine ⟨.goOn, s, rfl, ?_, Or.inr rfl, by simp, Nat.zero_le 1⟩
    simpa [Piece.written, Piece.items] using Puts.refl hat.ready

theorem toldCount_of_cons {n : Nat} (h : s.stream.items = .elements n :: more) :
    toldCount s = .ok (some n) { s with stream := { s.stream with items := more } } := by
  have hremaining : remaining s = .ok s.stream.items s := rfl
  rw [toldCount, bind_of_ok hremaining, h]
  rfl

/-- An array of structures whose number of elements the items tell. -/
theorem group_of_told (head : Header) (m : PassM Feed Flow) {length : Length}
    {count : Option Nat} {n : Nat} (hat : At ctx p s)
    (hcount : ctx.count (p.env ctx) length = .ok count)
    (hitems : s.stream.items = .elements n :: more) :
    ∃ s₁, At ctx p s₁ ∧ s₁.stream = { s.stream with items := more } ∧
      group ctx head (some length) m s =
        (match count with
        | some expected =>
          if expected = n then times m n
          else if ctx.options.lenient && n < expected then do
            let _ ← times m n
            pure .stop
          else throw (.elementCount (head.describe Kind.opening.name) expected n)
        | none => times m n : PassM Feed Flow) s₁ := by
  obtain ⟨questions, hc⟩ := (PassM.computes_arrayCount ctx s length).of_ok (by rw [hat.env, hcount])
  have htold := toldCount_of_cons (s := { s with asked := s.asked ++ questions }) hitems
  refine ⟨_, (hat.asking (s.asked ++ questions)).taking more, rfl, ?_⟩
  refine (bind_of_ok hc).trans ((bind_of_ok htold).trans ?_)
  cases count <;> rfl

/-- An item that was taken before the others. -/
theorem Puts.behind {bits : List Bool} {taken : List Item} {item : Item} {s₁ : PassState Feed}
    (h : Puts ctx bits taken s₁ s') (hitems : s.stream.items = item :: more)
    (hstream : s₁.stream = { s.stream with items := more }) :
    Puts ctx bits (item :: taken) s s' := by
  have hadds := h.adds
  have htaken := h.items
  rw [hstream] at hadds htaken
  exact ⟨hadds, hitems.trans (congrArg _ htaken)⟩

/-- An array of structures is written. Nothing is lost of it, since the items tell how many there
are. -/
theorem array_of_spells {endless : Bool} {certain : Nat} {length : Length}
    (hbody : Writes ctx m false spells)
    (h : Group.Spells ctx certain spells (some length) p v pieces place)
    (hsurvive : ∀ e ∈ pieces, e.Survives) (hat : At ctx p s)
    (hitems : s.stream.items = pieces.flatMap Piece.items ++ more)
    (hmore : place = none → more = []) (hlenient : place = none → ctx.options.lenient = true)
    (hendless : length = .unbounded → endless = true) :
    ∃ flow s', group ctx head (some length) m s = .ok flow s' ∧
      Puts ctx (pieces.flatMap Piece.written) (pieces.flatMap Piece.items) s s' ∧
      After ctx endless flow s' place := by
  cases h with
  | @counted _ _ values pieces n begun _ hcount all hle heq =>
    have hitems : s.stream.items =
        .elements values.length :: (pieces.flatMap Piece.items ++ more) := by
      simpa [Piece.items] using hitems
    obtain ⟨s₁, hat₁, hstream, hgroup⟩ := group_of_told head m hat hcount hitems
    obtain ⟨flow, s', hrun, hputs, hafter, hsame, hfew⟩ := structs_of_spells hbody all
      (fun e he => hsurvive e (List.mem_cons_of_mem _ he)) hat₁ (by rw [hstream]) hmore
    have hputs := hputs.behind hitems hstream
    simp only at hgroup
    by_cases hall : n = values.length
    · rw [if_pos hall] at hgroup
      refine ⟨flow, s', hgroup.trans hrun, by simpa [Piece.written, Piece.items] using hputs, ?_⟩
      cases place with
      | some p' => exact hafter
      | none =>
        have : ¬ values.length < begun := by omega
        exact Or.inl (by simpa [After, this] using hafter)
    · cases place with
      | some p' =>
        -- As many elements as the length says are left if the pass went on.
        have h₁ := hsame rfl
        have h₂ := heq rfl
        omega
      | none =>
        -- Fewer elements than the length says: only a lenient pass that was cut off leaves them.
        have hless : (ctx.options.lenient && decide (values.length < n)) = true := by
          rw [hlenient rfl, Bool.true_and, decide_eq_true_eq]
          omega
        rw [if_neg hall, if_pos hless] at hgroup
        exact ⟨.stop, s', hgroup.trans ((bind_of_ok hrun).trans rfl),
          by simpa [Piece.written, Piece.items] using hputs, Or.inl rfl⟩
  | @unbounded _ _ values pieces begun _ hcount all =>
    have hitems : s.stream.items =
        .elements values.length :: (pieces.flatMap Piece.items ++ more) := by
      simpa [Piece.items] using hitems
    obtain ⟨s₁, hat₁, hstream, hgroup⟩ := group_of_told head m hat hcount hitems
    obtain ⟨flow, s', hrun, hputs, hafter, -, -⟩ := structs_of_spells hbody all
      (fun e he => hsurvive e (by simp [he])) hat₁ (by rw [hstream]) hmore
    have hputs := hputs.behind hitems hstream
    refine ⟨flow, s', hgroup.trans hrun, by simpa [Piece.written, Piece.items] using hputs, ?_⟩
    cases place with
    | some p' => exact hafter
    | none => exact Or.inr (hendless (PassContext.eq_unbounded_of_count hcount))

/-- A structure or an array of them is written, unless all of it is lost. -/
theorem group_of_spells (head : Header) {endless : Bool} {certain : Nat} {length : Option Length}
    (hbody : Writes ctx m endless spells) (honce : length.isSome = true → endless = false)
    (h : Group.Spells ctx certain spells length p v pieces place)
    (hkept : place = none → pieces.flatMap Piece.items ≠ [])
    (hsurvive : ∀ e ∈ pieces, e.Survives) (hat : At ctx p s)
    (hitems : s.stream.items = pieces.flatMap Piece.items ++ more)
    (hmore : place = none → more = []) (hlenient : place = none → ctx.options.lenient = true) :
    ∃ flow s', group ctx head length m s = .ok flow s' ∧
      Puts ctx (pieces.flatMap Piece.written) (pieces.flatMap Piece.items) s s' ∧
      After ctx (length == some .unbounded || endless) flow s' place := by
  cases length with
  | some l =>
    have hfalse := honce rfl
    subst hfalse
    refine array_of_spells hbody h hsurvive hat hitems hmore hlenient fun hl => ?_
    rw [hl]
    rfl
  | none =>
    have hsame : (none == some Length.unbounded || endless) = endless := rfl
    rw [hsame]
    cases h with
    | struct one => exact hbody one hsurvive hat hitems hmore
    | @cut _ _ pieces one =>
      have hany : ¬ (pieces.flatMap Piece.items).isEmpty = true := by
        intro hempty
        rw [Piece.cut, if_pos hempty] at hkept
        exact hkept rfl rfl
      rw [Piece.cut, if_neg hany] at hsurvive hitems ⊢
      exact hbody one hsurvive hat hitems hmore

theorem endsBefore_apply (holds : Bool) (s : PassState Feed) :
    endsBefore ctx holds s =
      .ok (ctx.options.lenient && s.stream.items.isEmpty && holds) s :=
  rfl

/-- A lenient pass ends before a part that holds values if nothing is left to take. -/
theorem endsBefore_of_nil {holds : Bool} (hlenient : ctx.options.lenient = true)
    (hholds : holds = true) (hitems : s.stream.items = []) :
    endsBefore ctx holds s = .ok true s := by
  rw [endsBefore_apply, hitems, hlenient, hholds]
  rfl

/-- The pass does not end before a part of the layout that gives it something to take. -/
theorem endsBefore_of_items (ctx : PassContext) (holds : Bool) {taken : List Item}
    (hitems : s.stream.items = taken ++ more)
    (hany : ctx.options.lenient = true → holds = true → taken ≠ []) :
    endsBefore ctx holds s = .ok false s := by
  rw [endsBefore_apply, hitems]
  cases hlenient : ctx.options.lenient with
  | false => rfl
  | true =>
    cases hholds : holds with
    | false => rw [Bool.and_false]
    | true =>
      rw [List.isEmpty_eq_false_iff.mpr (List.append_ne_nil_of_left_ne_nil
        (hany hlenient hholds) more)]
      rfl

/-- A structure in which the record ends is written as far as it goes, and nothing behind it. -/
theorem fields_of_cut {length : Option Length} {body rest : Layout} {closing : Position}
    (hbody : Writes ctx (fields ctx body) body.endless (body.Spells ctx))
    (hlast : length = some .unbounded ∨ body.endless = true → rest = .done)
    (honce : length.isSome = true → body.endless = false)
    (h : Group.Spells ctx body.certainBits (body.Spells ctx) length p v pieces none)
    (hsurvive : ∀ e ∈ pieces, e.Survives) (hat : At ctx p s)
    (hitems : s.stream.items = pieces.flatMap Piece.items) :
    ∃ flow s', fields ctx (.group head length body closing rest) s = .ok flow s' ∧
      Puts ctx (pieces.flatMap Piece.written) (pieces.flatMap Piece.items) s s' ∧
      After ctx (Layout.group head length body closing rest).endless flow s' none := by
  obtain ⟨q, fs, es, hcut⟩ := h.exists_of_none
  obtain ⟨hlenient, hholds⟩ := hcut.holdsValue_of_none
  by_cases hnone : pieces.flatMap Piece.items = []
  · have hends := endsBefore_of_nil hlenient hholds (hitems.trans hnone)
    refine ⟨.stop, s, (bind_of_ok hends).trans rfl, ?_, Or.inl rfl⟩
    rw [hnone, h.lost_of_items hnone]
    exact Puts.refl hat.ready
  · have hitems : s.stream.items = pieces.flatMap Piece.items ++ [] := by
      rw [List.append_nil, hitems]
    have hends := endsBefore_of_items ctx body.holdsValue hitems fun _ _ => hnone
    obtain ⟨flow, s₁, hrun, hputs, hafter⟩ := group_of_spells head hbody honce h
      (fun _ => hnone) hsurvive hat hitems (fun _ => rfl) fun _ => hlenient
    refine ⟨flow, s₁, ?_, hputs, hafter.mono fun hendless => ?_⟩
    · refine (bind_of_ok hends).trans ((bind_of_ok hrun).trans ?_)
      cases flow with
      | stop => rfl
      | goOn =>
        -- Only an unbounded array ends unnoticed, and nothing follows it.
        have hendless : length = some .unbounded ∨ body.endless = true := by
          simpa [After] using hafter
        rw [hlast hendless]
        rfl
    · rw [Layout.endless, hendless, Bool.true_or]

/-- Every record of a layout is written. -/
theorem fields_of_spells {l : Layout} (hterminal : l.Terminal) :
    Writes ctx (fields ctx l) l.endless (l.Spells ctx) := by
  induction l with
  | done =>
    rintro p s found pieces place more ⟨rfl, rfl, rfl⟩ - hat - -
    exact ⟨.goOn, s, rfl, Puts.refl hat.ready, rfl, hat⟩
  | item head decl rest ih =>
    intro p s found pieces place more h hsurvive hat hitems hmore
    rcases h with ⟨⟨hlenient, hholds⟩, -, rfl, rfl⟩ |
      ⟨node, first, p₁, found', later, hdecl, hrest, -, rfl⟩
    -- A pass cut off in front of this declaration has no items left, and so it stops here too.
    · have hends := endsBefore_of_nil hlenient hholds (hitems.trans (hmore rfl))
      exact ⟨.stop, s, (bind_of_ok hends).trans rfl, Puts.refl hat.ready, Or.inl rfl⟩
    · rw [List.flatMap_append, List.append_assoc] at hitems
      have hends := endsBefore_of_items ctx decl.kind.holdsValue hitems fun _ => hdecl.items_ne_nil
      obtain ⟨s₁, hitem, hputs, hat₁⟩ := item_of_spells hdecl
        (fun e he => hsurvive e (List.mem_append_left later he)) hat hitems
      obtain ⟨flow, s₂, hrun, hputs', hafter⟩ := ih hterminal.2 hrest
        (fun e he => hsurvive e (List.mem_append_right first he)) hat₁ (hputs.items_left hitems)
        hmore
      refine ⟨flow, s₂, ?_, hputs.append hputs', hafter.mono fun hendless => ?_⟩
      · rw [fields, bind_of_ok hends]
        exact (bind_of_ok hitem).trans hrun
      · rw [Layout.endless, hendless, Bool.or_true]
  | group head length body closing rest ihbody ihrest =>
    intro p s found pieces place more h hsurvive hat hitems hmore
    obtain ⟨hlast, honce, hbody, hrest⟩ := hterminal
    rcases h with ⟨⟨hlenient, hholds⟩, -, rfl, rfl⟩ |
      ⟨v, first, ⟨hgroup, -, rfl, rfl⟩ | ⟨p₁, found', later, hgroup, hlater, -, rfl⟩⟩
    · have hends := endsBefore_of_nil hlenient hholds (hitems.trans (hmore rfl))
      exact ⟨.stop, s, (bind_of_ok hends).trans rfl, Puts.refl hat.ready, Or.inl rfl⟩
    · rw [hmore rfl, List.append_nil] at hitems
      exact fields_of_cut (ihbody hbody) hlast honce hgroup hsurvive hat hitems
    · rw [List.flatMap_append, List.append_assoc] at hitems
      have hends := endsBefore_of_items ctx body.holdsValue hitems fun _ hholds =>
        hgroup.items_ne_nil_of_some fun one => one.items_ne_nil hholds
      obtain ⟨flow, s₁, hrun, hputs, rfl, hat₁⟩ := group_of_spells head (ihbody hbody)
        honce hgroup (fun h => by cases h) (fun e he => hsurvive e (List.mem_append_left later he))
        hat hitems (fun h => by cases h) (fun h => by cases h)
      obtain ⟨flow, s₂, hmoreRun, hputs', hafter⟩ := ihrest hrest hlater
        (fun e he => hsurvive e (List.mem_append_right first he)) hat₁ (hputs.items_left hitems)
        hmore
      refine ⟨flow, s₂, ?_, hputs.append hputs', hafter.mono fun hendless => ?_⟩
      · rw [fields, bind_of_ok hends]
        exact (bind_of_ok hrun).trans hmoreRun
      · rw [Layout.endless, hendless, Bool.or_true]

end Encode

end RecordLayout
