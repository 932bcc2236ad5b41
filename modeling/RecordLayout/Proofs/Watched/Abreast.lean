import RecordLayout.Proofs.Layout.Supply
import RecordLayout.Proofs.Pass.ReadSound
import RecordLayout.Proofs.Pass.WriteComplete
import RecordLayout.Proofs.Watched.Evaluations

/-!
# Reading and writing abreast

A write that is given the items of what a read has found goes the way of the read. Both passes stand
at the same place before and behind every declaration, although the one counts the bits that it takes
from the stream and the other those that it puts there, so their expressions are evaluated in the
same numbers and counters and ask the same questions. Only the read looks for the end of the stream,
which changes nothing that an expression sees, and only the write takes the numbers of elements from
its items, where the read has counted them.

The passes are strict: a lenient write may end earlier than the read did.
-/

namespace RecordLayout

open PassM.Watched

variable {ctx : PassContext} {head : Header} {r r₁ r' : WatchedState Reader}
  {w w₁ w' : WatchedState Feed} {taken more : List Item}

/-- The passes stand at the same place and have evaluated the same expressions. -/
structure Abreast (ctx : PassContext) (r : WatchedState Reader) (w : WatchedState Feed) : Prop where
  place : ∃ p, Decode.At p r.pass ∧ Encode.At ctx p w.pass
  evaluations : evaluationsOf r.past = evaluationsOf w.past
  asked : r.pass.asked = w.pass.asked

namespace Abreast

theorem env (h : Abreast ctx r w) : PassM.env ctx r.pass = PassM.env ctx w.pass := by
  obtain ⟨p, hread, hwrite⟩ := h.place
  rw [hread.env, hwrite.env]

theorem inByte_reader (h : Abreast ctx r w) : r.pass.stream.InByte := by
  obtain ⟨p, hread, -⟩ := h.place
  exact hread.sound.used_le

theorem inByte_writer (h : Abreast ctx r w) : Encode.Watched.InByte w.pass.stream := by
  obtain ⟨p, -, hwrite⟩ := h.place
  exact hwrite.ready.used_lt

/-- Passes that evaluate the same expressions and come to the same place. -/
theorem further {i : Nat} {es : List Expr} (h : Abreast ctx r w) (hread : Logs ctx i es r r')
    (hwrite : Logs ctx i es w w')
    (hplace : ∃ p, Decode.At p r'.pass ∧ Encode.At ctx p w'.pass) : Abreast ctx r' w' := by
  refine ⟨hplace, ?_, ?_⟩
  · rw [hread.evaluations, hwrite.evaluations, h.evaluations, h.env]
  · rw [hread.asked, hwrite.asked, h.asked, h.env]

/-- The read looks for the end of the stream. -/
theorem look {least : Nat} (h : Abreast ctx r w) (hlook : Decode.Watched.Looks ctx least r r') :
    Abreast ctx r' w := by
  obtain ⟨p, hread, hwrite⟩ := h.place
  refine h.further (i := 0) hlook.logs (.of_same rfl rfl) ⟨p, ?_, hwrite⟩
  rcases hlook with rfl | ⟨ends, hrun⟩
  · exact hread
  · have hplain := (safe_onStream (Reader.safe_atEndFor least _)).of_ok h.inByte_reader hrun
    exact (Decode.look_sound hread hplain).1

/-- An element begins in both passes. -/
theorem note_element (h : Abreast ctx r w) (a : Nat) :
    Abreast ctx { r with past := .element a :: r.past } { w with past := .element a :: w.past } := by
  refine ⟨h.place, ?_, h.asked⟩
  rw [evaluationsOf_element, evaluationsOf_element, h.evaluations]

/-- Both passes compute the same length. -/
theorem arrayCount {l : Length} {count : Option Nat} (h : Abreast ctx r w)
    (hrun : arrayCount ctx head l r = .ok count r') :
    ∃ w', arrayCount ctx head l w = .ok count w' ∧ w'.pass.stream = w.pass.stream ∧
      Abreast ctx r' w' := by
  obtain ⟨p, hread, hwrite⟩ := h.place
  have hplain := (safe_arrayCount l).of_ok h.inByte_reader hrun
  obtain ⟨hcount, first, hr'⟩ := (PassM.computes_arrayCount ctx r.pass l).eq_ok hplain
  rw [h.env] at hcount
  obtain ⟨second, hplain'⟩ := (PassM.computes_arrayCount ctx w.pass l).of_ok hcount
  obtain ⟨w', hrun', hw', -⟩ := (safe_arrayCount l).eq_ok h.inByte_writer hplain'
  refine ⟨w', hrun', by rw [hw'], ?_⟩
  refine h.further (consulting_arrayCount l r count r' hrun).1
    (consulting_arrayCount l w count w' hrun').1 ⟨p, ?_, ?_⟩
  · rw [hr']
    exact hread.asking _
  · rw [hw']
    exact hwrite.asking _

/-- The write takes the number of elements. -/
theorem toldCount {n : Nat} (h : Abreast ctx r w) (hitems : w.pass.stream.items = .elements n :: more) :
    ∃ w', Encode.Watched.toldCount w = .ok (some n) w' ∧ w'.pass.stream.items = more ∧
      Abreast ctx r w' := by
  obtain ⟨p, hread, hwrite⟩ := h.place
  obtain ⟨w', hrun, hw', -⟩ := Encode.Watched.safe_toldCount.eq_ok h.inByte_writer
    (Encode.toldCount_of_cons hitems)
  refine ⟨w', hrun, by rw [hw'], ?_⟩
  refine h.further (i := 0) (.of_same rfl rfl)
    (Encode.Watched.consulting_toldCount w _ w' hrun).1 ⟨p, hread, ?_⟩
  rw [hw']
  exact hwrite.taking more

/-- What is read of a declaration is written, and the passes are abreast again. -/
theorem item {decl : Decl} {node : Option Field} (h : Abreast ctx r w)
    (hcustom : decl.customUse = none)
    (hrun : Decode.Watched.item ctx head decl r = .ok node r') :
    ∃ p pieces p', decl.Spells ctx head p node pieces p' ∧
      ∀ more, w.pass.stream.items = pieces.flatMap Piece.items ++ more →
        ∃ w', Encode.Watched.item ctx head decl w = .ok () w' ∧ w'.pass.stream.items = more ∧
          Abreast ctx r' w' := by
  obtain ⟨p, hread, hwrite⟩ := h.place
  have hplain := (Decode.Watched.safe_item decl).of_ok h.inByte_reader hrun
  obtain ⟨pieces, p', hspells, -, hread'⟩ := Decode.item_sound hread hcustom hplain
  refine ⟨p, pieces, p', hspells, fun more hitems => ?_⟩
  obtain ⟨s, hplain', hmore, hwrite'⟩ := Encode.item_again hspells hwrite hitems
  obtain ⟨w', hrun', rfl, -⟩ := (Encode.Watched.safe_item decl).eq_ok h.inByte_writer hplain'
  exact ⟨w', hrun', hmore, h.further (Decode.Watched.evaluating_item hcustom r node r' hrun)
    (Encode.Watched.evaluating_item hcustom w () w' hrun') ⟨p', hread', hwrite'⟩⟩

end Abreast

/-- Whatever the one operation reads the other writes from the items of it, and the passes are
abreast again. -/
def Again (ctx : PassContext) (ofNodes : List Field → Except Error Item.Laid)
    (m : WatchedM Reader (List Field × Flow)) (m' : WatchedM Feed Flow) : Prop :=
  ∀ {r w found r' taken more}, Abreast ctx r w → m r = .ok (found, .goOn) r' →
    ofNodes found = .ok (taken, true) → w.pass.stream.items = taken ++ more →
    ∃ w', m' w = .ok .goOn w' ∧ w'.pass.stream.items = more ∧ Abreast ctx r' w'

section

variable {ofNodes : List Field → Except Error Item.Laid} {m : WatchedM Reader (List Field × Flow)}
  {m' : WatchedM Feed Flow}

/-- A repetition that was not broken off has read as many elements as it was to. -/
theorem length_of_times {α : Type} {element : WatchedM Reader (Decode.Step α)} {n : Nat}
    {xs : List α} (h : Decode.Watched.times element n r = .ok (xs, .goOn) r') : xs.length = n := by
  induction n generalizing r xs with
  | zero =>
    cases h
    rfl
  | succ n ih =>
    rw [Decode.Watched.times] at h
    obtain ⟨step, r₁, -, h⟩ := bind_eq_ok.mp h
    cases step with
    | last x => cases h
    | next x =>
      obtain ⟨⟨more, flow⟩, r₂, hmore, h⟩ := bind_eq_ok.mp h
      cases h
      rw [List.length_cons, ih hmore]

/-- As many structures are written as were read. -/
theorem Again.rounds (hbody : Again ctx ofNodes m m') {a least : Nat} {shape : Error}
    {values : List Value} (hrounds : Decode.Watched.Rounds ctx least
      (note (.element a) >>= fun _ => Decode.Step.ofBody <$> m) r values .goOn r')
    (h : Abreast ctx r w) (hlaid : Item.ofElements shape ofNodes values = .ok (taken, true))
    (hitems : w.pass.stream.items = taken ++ more) :
    ∃ w', Encode.Watched.times (note (.element a) >>= fun _ => m') values.length w = .ok .goOn w' ∧
      w'.pass.stream.items = more ∧ Abreast ctx r' w' := by
  generalize hflow : Flow.goOn = flow at hrounds
  induction hrounds generalizing w taken with
  | done look =>
    cases hlaid
    exact ⟨w, rfl, hitems, h.look look⟩
  | last => cases hflow
  | @next r r₁ r₂ r' v values flow look one _ ih =>
    obtain ⟨found, first, later, rfl, hfirst, hlater, rfl⟩ := Item.ofElements_cons hlaid
    rw [List.append_assoc] at hitems
    have hstep : (Decode.Step.ofBody <$> m) { r₁ with past := .element a :: r₁.past } =
        .ok (.next (.struct found)) r₂ := one
    obtain ⟨⟨found', flow'⟩, hfound, hofBody⟩ := map_eq_ok.mp hstep
    cases flow' with
    | stop => cases hofBody
    | goOn =>
      cases hofBody
      obtain ⟨w₁, hrun, hitems₁, h₁⟩ := hbody ((h.look look).note_element a) hfound hfirst hitems
      obtain ⟨w', hrest, hitems', h'⟩ := ih h₁ hlater hitems₁ hflow
      refine ⟨w', ?_, hitems', h'⟩
      have hone : (note (.element a) >>= fun _ => m') w = .ok .goOn w₁ := hrun
      rw [List.length_cons, Encode.Watched.times, bind_of_ok hone]
      exact hrest

/-- A structure or an array of them that is read is written. -/
theorem Again.group (hbody : Again ctx ofNodes m m') {length : Option Length} {certain : Nat}
    {v : Value} (h : Abreast ctx r w)
    (hrun : Decode.Watched.group ctx head length certain m r = .ok (v, .goOn) r')
    (hlaid : Item.ofGroup head length ofNodes v = .ok (taken, true))
    (hitems : w.pass.stream.items = taken ++ more) :
    ∃ w', Encode.Watched.group ctx head length m' w = .ok .goOn w' ∧
      w'.pass.stream.items = more ∧ Abreast ctx r' w' := by
  cases length with
  | none =>
    obtain ⟨⟨found, flow⟩, r₁, hfound, hrun⟩ := bind_eq_ok.mp hrun
    cases hrun
    exact hbody h hfound hlaid hitems
  | some l =>
    obtain ⟨count, r₁, hcount, hrun⟩ := bind_eq_ok.mp hrun
    obtain ⟨⟨values, flow⟩, r₂, helements, hrun⟩ := bind_eq_ok.mp hrun
    cases hrun
    obtain ⟨⟨front, whole⟩, hfront, hlaid⟩ := except_bind_eq_ok.mp hlaid
    cases hlaid
    obtain ⟨w₁, hcount', hstream, h₁⟩ := h.arrayCount hcount
    obtain ⟨w₂, htold, hitems₂, h₂⟩ := h₁.toldCount (n := values.length) (hstream ▸ hitems)
    obtain ⟨w', htimes, hitems', h'⟩ := hbody.rounds (Decode.Watched.rounds_elements helements) h₂
      hfront hitems₂
    refine ⟨w', ?_, hitems', h'⟩
    refine (bind_of_ok hcount').trans ((bind_of_ok htold).trans ?_)
    cases count with
    | none => exact htimes
    | some n =>
      have hlength : n = values.length := (length_of_times helements).symm
      dsimp only
      rw [if_pos hlength]
      exact htimes

end

theorem Decode.Watched.endsBefore_of_strict (hstrict : ctx.options.lenient = false) (holds : Bool) :
    Decode.Watched.endsBefore ctx holds = pure false := by
  rw [endsBefore, hstrict]
  rfl

theorem Encode.Watched.endsBefore_of_strict (hstrict : ctx.options.lenient = false) (holds : Bool)
    (w : WatchedState Feed) : Encode.Watched.endsBefore ctx holds w = .ok false w := by
  have hrun : Encode.Watched.endsBefore ctx holds w =
      .ok (ctx.options.lenient && w.pass.stream.items.isEmpty && holds) w := rfl
  rw [hrun, hstrict, Bool.false_and, Bool.false_and]

/-- A record that is read in a strict pass is written again. -/
theorem again_fields {l : Layout} (hcustom : l.customUses = [])
    (hstrict : ctx.options.lenient = false) :
    Again ctx (Item.ofFields l) (Decode.Watched.fields ctx l) (Encode.Watched.fields ctx l) := by
  induction l with
  | done =>
    intro r w found r' taken more h hrun hlaid hitems
    cases hrun
    cases hlaid
    exact ⟨w, rfl, hitems, h⟩
  | item head decl rest ih =>
    intro r w found r' taken more h hrun hlaid hitems
    rw [Layout.customUses, List.append_eq_nil_iff, Option.toList_eq_nil_iff] at hcustom
    rw [Decode.Watched.fields, Decode.Watched.endsBefore_of_strict hstrict, pure_bind,
      if_neg Bool.false_ne_true] at hrun
    obtain ⟨node, r₁, hitem, hrun⟩ := bind_eq_ok.mp hrun
    obtain ⟨⟨later, flow⟩, r₂, hrest, hrun⟩ := bind_eq_ok.mp hrun
    cases hrun
    obtain ⟨p, pieces, p', hspells, hwrite⟩ := h.item hcustom.1 hitem
    -- A directive has neither a node nor items; any other declaration has the items of its node.
    have hsplit : ∃ back, Item.ofFields rest later = .ok (back, true) ∧
        taken = pieces.flatMap Piece.items ++ back := by
      unfold Item.ofFields at hlaid
      rcases hspells.laid with ⟨hdirective, rfl, hnone⟩ | ⟨v, hdirective, rfl, hnode⟩
      · rw [if_pos hdirective] at hlaid
        exact ⟨taken, hlaid, by rw [hnone, List.nil_append]⟩
      · rw [if_neg (by rw [hdirective]; exact Bool.false_ne_true)] at hlaid
        obtain ⟨-, -, hlaid⟩ := except_bind_eq_ok.mp hlaid
        obtain ⟨back, -, hback, rfl⟩ := Item.andThen_eq_ok.mp hlaid
        exact ⟨back, hback, congrArg (· ++ back) hnode⟩
    obtain ⟨back, hback, rfl⟩ := hsplit
    rw [List.append_assoc] at hitems
    obtain ⟨w₁, hitem', hitems₁, h₁⟩ := hwrite _ hitems
    obtain ⟨w', hrest', hitems', h'⟩ := ih hcustom.2 h₁ hrest hback hitems₁
    refine ⟨w', ?_, hitems', h'⟩
    rw [Encode.Watched.fields, bind_of_ok (Encode.Watched.endsBefore_of_strict hstrict _ w)]
    exact (bind_of_ok hitem').trans hrest'
  | group head length body closing rest ihbody ihrest =>
    intro r w found r' taken more h hrun hlaid hitems
    rw [Layout.customUses, List.append_eq_nil_iff] at hcustom
    rw [Decode.Watched.fields, Decode.Watched.endsBefore_of_strict hstrict, pure_bind,
      if_neg Bool.false_ne_true] at hrun
    obtain ⟨⟨v, flow⟩, r₁, hgroup, hrun⟩ := bind_eq_ok.mp hrun
    cases flow with
    | stop => cases hrun
    | goOn =>
      obtain ⟨⟨later, flow⟩, r₂, hrest, hrun⟩ := bind_eq_ok.mp hrun
      cases hrun
      obtain ⟨node, later', first, back, heq, hfirst, hback, rfl⟩ := Item.ofFields_group hlaid
      cases heq
      rw [List.append_assoc] at hitems
      obtain ⟨w₁, hgroup', hitems₁, h₁⟩ := Again.group (ihbody hcustom.1) h hgroup hfirst hitems
      obtain ⟨w', hrest', hitems', h'⟩ := ihrest hcustom.2 h₁ hrest hback hitems₁
      refine ⟨w', ?_, hitems', h'⟩
      rw [Encode.Watched.fields, bind_of_ok (Encode.Watched.endsBefore_of_strict hstrict _ w)]
      exact (bind_of_ok hgroup').trans hrest'

end RecordLayout
