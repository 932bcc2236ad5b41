import RecordLayout.Proofs.Layout.Record

/-!
# Values that are written again

A write that is given what a read has found brings every value into the form of its type, where it
is already; only a 32-bit float may come out as another one. That changes no length and no integer,
so the record that is written has the same places as the one that was read.
-/

namespace RecordLayout

/-! ## Values -/

/-- A write takes the first value for the type and writes the second, which is in its form. -/
def ElementType.Takes (width : Nat) (u v : Value) (type : ElementType) : Prop :=
  type.normalize width u = some v ∧ type.Fits width v

namespace ElementType

variable {type : ElementType} {width : Nat} {u v : Value}

/-- A value that fits is one that a write takes as it is, or a float. -/
theorem Fits.survives_or_float (h : type.Fits width u) :
    u.Survives ∨ type = .fixed .float ∧ ∃ x, u = .float x := by
  have hnone (hfloats : u.floats = []) : u.Survives := by
    intro x hx
    rw [hfloats] at hx
    cases hx
  cases type with
  | fixed type =>
    have hnumber := h.1
    cases type with
    | float =>
      simp only [FixedType.ofNumber, Except.ok.injEq] at hnumber
      exact .inr ⟨rfl, _, hnumber.symm⟩
    | bool =>
      left
      apply hnone
      simp only [FixedType.ofNumber] at hnumber
      split at hnumber
      · cases hnumber
        rfl
      · split at hnumber
        · cases hnumber
          rfl
        · cases hnumber
    | _ =>
      left
      apply hnone
      simp only [FixedType.ofNumber, Except.ok.injEq] at hnumber
      rw [← hnumber]
      rfl
  | bit w =>
    obtain ⟨-, x, rfl, -⟩ := h
    exact .inl (hnone rfl)
  | text =>
    obtain ⟨t, rfl, -⟩ := h
    exact .inl (hnone rfl)
  | custom use extra => exact h.elim

/-- What a read can give a write can take, and the bits are as many. -/
theorem Fits.exists_takes (h : type.Fits width u) (order : ByteOrder) :
    ∃ v, type.Takes width u v ∧ v.asInt = u.asInt ∧
      (type.spell order width v).length = (type.spell order width u).length := by
  rcases h.survives_or_float with hsurvive | ⟨rfl, x, rfl⟩
  · exact ⟨u, ⟨normalize_of_fits h hsurvive, h⟩, rfl, rfl⟩
  · have hnormal : FixedType.float.normalize (.float x) = some (.float x.widen.narrow) := rfl
    refine ⟨_, ⟨hnormal, FixedType.ofNumber_of_normalize hnormal⟩, rfl, ?_⟩
    simp only [spell, Bits.length_ofBytes, ByteOrder.length_bytes]

end ElementType

/-- A write takes the first value for the slot and writes the second; an array of single bytes is
taken as it is. -/
def Slot.Takes (s : Slot) (u v : Value) : Prop :=
  match s.array, s.type.isByte with
  | false, _ => s.type.Takes s.width u v
  | true, true => ∃ bs, u = .bytes bs ∧ v = .bytes bs
  | true, false => ∃ us vs, u = .list us ∧ v = .list vs ∧
      List.Forall₂ (fun u v => s.type.Takes s.width u v) us vs

namespace Slot

variable {order : ByteOrder} {type : ElementType} {width : Nat} {array : Bool} {u v : Value}

theorem Fits.takes_self (h : (Slot.mk order type width array).Fits v) (hsurvive : v.Survives) :
    (Slot.mk order type width array).Takes v v := by
  unfold Fits at h
  unfold Takes
  cases array with
  | false => exact ⟨ElementType.normalize_of_fits h hsurvive, h⟩
  | true =>
    cases hbyte : type.isByte with
    | true =>
      simp only [hbyte] at h ⊢
      obtain ⟨bs, rfl⟩ := h
      exact ⟨bs, rfl, rfl⟩
    | false =>
      simp only [hbyte] at h ⊢
      obtain ⟨items, rfl, hfits⟩ := h
      refine ⟨items, items, rfl, rfl, List.forall₂_same.mpr fun x hx => ?_⟩
      exact ⟨ElementType.normalize_of_fits (hfits x hx)
        fun f hf => hsurvive f (Value.floats_subset_of_mem hx hf), hfits x hx⟩

/-- Elements that a write takes, one by one. -/
theorem exists_takes_of_all (order : ByteOrder) {us : List Value}
    (h : ∀ u ∈ us, type.Fits width u) :
    ∃ vs, List.Forall₂ (fun u v => type.Takes width u v) us vs ∧
      (vs.flatMap fun v => type.spell order width v).length =
        (us.flatMap fun u => type.spell order width u).length := by
  induction us with
  | nil => exact ⟨[], .nil, rfl⟩
  | cons u us ih =>
    obtain ⟨v, htakes, -, hlength⟩ := (h u List.mem_cons_self).exists_takes order
    obtain ⟨vs, hall, hlengths⟩ := ih fun x hx => h x (List.mem_cons_of_mem u hx)
    refine ⟨v :: vs, .cons htakes hall, ?_⟩
    rw [List.flatMap_cons, List.flatMap_cons, List.length_append, List.length_append, hlength,
      hlengths]

/-- What a read of the slot can give a write can take. The bits and the elements are as many, and an
integer is the same. -/
theorem Fits.exists_takes (h : (Slot.mk order type width array).Fits u) :
    ∃ v, (Slot.mk order type width array).Takes u v ∧ (array = false → v.asInt = u.asInt) ∧
      (array = true → v.length? = u.length?) ∧ ((Slot.mk order type width array).spell v).length =
        ((Slot.mk order type width array).spell u).length := by
  unfold Fits at h
  unfold Takes
  cases array with
  | false =>
    obtain ⟨v, htakes, hint, hlength⟩ := ElementType.Fits.exists_takes h order
    exact ⟨v, htakes, fun _ => hint, (fun h => by cases h), hlength⟩
  | true =>
    cases hbyte : type.isByte with
    | true =>
      simp only [hbyte] at h ⊢
      obtain ⟨bs, rfl⟩ := h
      exact ⟨_, ⟨bs, rfl, rfl⟩, (fun h => by cases h), fun _ => rfl, rfl⟩
    | false =>
      simp only [hbyte] at h ⊢
      obtain ⟨us, rfl, hfits⟩ := h
      obtain ⟨vs, hall, hlength⟩ := exists_takes_of_all order hfits
      exact ⟨_, ⟨us, vs, rfl, rfl, hall⟩, (fun h => by cases h),
        fun _ => congrArg some hall.length_eq.symm, hlength⟩

/-- What is written fits the slot. -/
theorem Takes.fits (h : (Slot.mk order type width array).Takes u v) :
    (Slot.mk order type width array).Fits v := by
  unfold Takes at h
  unfold Fits
  cases array with
  | false => exact h.2
  | true =>
    cases hbyte : type.isByte with
    | true =>
      simp only [hbyte] at h ⊢
      obtain ⟨bs, -, rfl⟩ := h
      exact ⟨bs, rfl⟩
    | false =>
      simp only [hbyte] at h ⊢
      obtain ⟨us, vs, -, rfl, hall⟩ := h
      have hflip : List.Forall₂ (fun v u => type.Fits width v ∧ type.normalize width u = some v)
          vs us := .flip (hall.imp fun _ _ h => ⟨h.2, h.1⟩)
      exact ⟨vs, rfl, ((List.forall₂_and_left _ _).mp hflip).1⟩

end Slot

/-! ## Pieces -/

/-- A write that takes the item of the first piece writes the second. -/
inductive Piece.Becomes : Piece → Piece → Prop
  | value {slot : Slot} {u v : Value} (takes : slot.Takes u v) :
      Piece.Becomes (.value slot u) (.value slot v)
  | ended (least : Nat) : Piece.Becomes (.ended least) (.ended least)
  | passed (bits : List Bool) : Piece.Becomes (.passed bits) (.passed bits)

namespace Decl.Spells

variable {ctx : PassContext} {head : Header} {decl : Decl} {p p' : Place} {node : Option Field}
  {pieces : List Piece}

/-- Where every float survives, a record is written as it is. -/
theorem becomes_self (h : decl.Spells ctx head p node pieces p')
    (hsurvive : ∀ e ∈ pieces, e.Survives) : List.Forall₂ Piece.Becomes pieces pieces := by
  cases h with
  | single _ fits => exact .cons (.value (fits.takes_self (hsurvive _ List.mem_cons_self))) .nil
  | counted _ _ _ fits =>
    exact .cons (.value (fits.takes_self (hsurvive _ List.mem_cons_self))) .nil
  | unbounded _ _ fits =>
    exact .cons (.value (fits.takes_self (hsurvive _ List.mem_cons_self))) (.cons (.ended _) .nil)
  | computed => exact .nil
  | align | skip | reset => exact .cons (.passed _) .nil

/-- What was read of a declaration becomes a part of a record that ends at the same place. -/
theorem exists_becomes (h : decl.Spells ctx head p node pieces p') :
    ∃ node' pieces', decl.Spells ctx head p node' pieces' p' ∧
      List.Forall₂ Piece.Becomes pieces pieces' := by
  cases h with
  | @single type w u _ width fits =>
    obtain ⟨v, htakes, hint, -, hlength⟩ := fits.exists_takes
    have hplace : (p.advance ((Slot.mk head.order type w false).spell u).length).note head.info u =
        (p.advance ((Slot.mk head.order type w false).spell v).length).note head.info v := by
      simp only [Place.note, hlength, hint rfl]
    rw [hplace]
    exact ⟨_, _, .single width htakes.fits, .cons (.value htakes) .nil⟩
  | counted width count long fits =>
    obtain ⟨v, htakes, -, hlong, hlength⟩ := fits.exists_takes
    rw [← hlength]
    exact ⟨_, _, .counted width count ((hlong rfl).trans long) htakes.fits, .cons (.value htakes) .nil⟩
  | unbounded width count fits =>
    obtain ⟨v, htakes, -, -, hlength⟩ := fits.exists_takes
    rw [← hlength]
    exact ⟨_, _, .unbounded width count htakes.fits, .cons (.value htakes) (.cons (.ended _) .nil)⟩
  | computed value => exact ⟨_, _, .computed value, .nil⟩
  | align multiple long => exact ⟨_, _, .align multiple long, .cons (.passed _) .nil⟩
  | skip count long => exact ⟨_, _, .skip count long, .cons (.passed _) .nil⟩
  | reset long => exact ⟨_, _, .reset long, .cons (.passed _) .nil⟩

end Decl.Spells

end RecordLayout
