/-!
# Binary floating point

Two interchange formats, of 32 and 64 bits. A number is kept as its bits; taking it apart gives a
sign and an integer times a power of two, and every conversion rounds such a pair to the nearest
number of the target format, a tie to the even one. A signal in a NaN is quietened, its sign and
the leading bits of its payload are kept.
-/

namespace RecordLayout

-- Powers are those of the standard library, whatever a proof imports.
attribute [instance (high), default_instance (high+1)] instPowNat

/-- The widths of the fraction and of the exponent of an interchange format. -/
structure FloatFormat where
  fraction : Nat
  exponent : Nat

namespace FloatFormat

/-- The 32-bit format. -/
def single : FloatFormat := ⟨23, 8⟩

/-- The 64-bit format. -/
def double : FloatFormat := ⟨52, 11⟩

/-- The exponent field of infinities and NaNs. -/
def top (f : FloatFormat) : Nat := 2 ^ f.exponent - 1

/-- The exponent of the last place of the smallest numbers. -/
def least (f : FloatFormat) : Int := 2 - 2 ^ (f.exponent - 1) - f.fraction

/-- The weight of the sign bit. -/
def signBit (f : FloatFormat) : Nat := 2 ^ (f.fraction + f.exponent)

end FloatFormat

/-- A number taken apart. -/
inductive FloatParts where
  | nan (negative : Bool) (payload : Nat)
  | infinite (negative : Bool)
  /-- The magnitude is `mantissa * 2 ^ exponent`. -/
  | finite (negative : Bool) (mantissa : Nat) (exponent : Int)
  deriving DecidableEq, Repr

namespace FloatFormat

/-- The parts of the number with these bits. -/
def parts (f : FloatFormat) (bits : Nat) : FloatParts :=
  let negative := decide (f.signBit ≤ bits)
  let magnitude := bits % f.signBit
  let fraction := magnitude % 2 ^ f.fraction
  let field := magnitude / 2 ^ f.fraction
  if field = f.top then
    if fraction = 0 then .infinite negative else .nan negative fraction
  else if field = 0 then .finite negative fraction f.least
  else .finite negative (2 ^ f.fraction + fraction) (f.least + (field - 1 : Nat))

/-- `n / d` rounded to the nearest integer, a tie to the even one. -/
def divToEven (n d : Nat) : Nat :=
  let q := n / d
  let r := n % d
  if 2 * r < d then q
  else if d < 2 * r then q + 1
  else if q % 2 = 0 then q
  else q + 1

/-- `m * 2 ^ e` in units of `2 ^ q`, rounded. -/
def inUnits (m : Nat) (e q : Int) : Nat :=
  if q ≤ e then m * 2 ^ (e - q).toNat else divToEven m (2 ^ (q - e).toNat)

/-- The bits of the number of the format nearest to `m * 2 ^ e`. A significand that rounds up to
the next power of two carries into the exponent field, where it belongs. -/
def magnitudeBits (f : FloatFormat) (m : Nat) (e : Int) : Nat :=
  if m = 0 then 0
  else
    let q := max f.least (e + (Nat.log2 m : Nat) - f.fraction)
    min (f.top * 2 ^ f.fraction) ((q - f.least).toNat * 2 ^ f.fraction + inUnits m e q)

/-- The bits of a sign. -/
def sign (f : FloatFormat) (negative : Bool) : Nat :=
  if negative then f.signBit else 0

/-- The bits of a number of another format after conversion. -/
def convert (source target : FloatFormat) (bits : Nat) : Nat :=
  match source.parts bits with
  | .finite negative m e => target.sign negative + target.magnitudeBits m e
  | .infinite negative => target.sign negative + target.top * 2 ^ target.fraction
  | .nan negative payload =>
    let kept := payload * 2 ^ target.fraction / 2 ^ source.fraction
    target.sign negative + target.top * 2 ^ target.fraction +
      (kept ||| 2 ^ (target.fraction - 1))

/-- Equal as numbers: zeros of either sign are one number, and a NaN equals nothing. -/
def equal (f : FloatFormat) (a b : Nat) : Bool :=
  match f.parts a, f.parts b with
  | .nan _ _, _ => false
  | _, .nan _ _ => false
  | _, _ => a == b || (a % f.signBit == 0 && b % f.signBit == 0)

/-- The bits belong to a NaN. -/
def isNaN (f : FloatFormat) (bits : Nat) : Bool :=
  match f.parts bits with
  | .nan _ _ => true
  | _ => false

end FloatFormat

/-- A number of the 32-bit format. -/
structure Binary32 where
  bits : UInt32
  deriving DecidableEq, Repr

/-- A number of the 64-bit format. -/
structure Binary64 where
  bits : UInt64
  deriving DecidableEq, Repr

namespace Binary32

/-- The same number in the wider format. -/
def widen (x : Binary32) : Binary64 :=
  ⟨.ofNat (FloatFormat.convert .single .double x.bits.toNat)⟩

/-- Not a number. -/
def isNaN (x : Binary32) : Bool := FloatFormat.single.isNaN x.bits.toNat

/-- Equal as numbers. -/
def equal (x y : Binary32) : Bool := FloatFormat.single.equal x.bits.toNat y.bits.toNat

end Binary32

namespace Binary64

/-- The nearest number of the narrower format. -/
def narrow (x : Binary64) : Binary32 :=
  ⟨.ofNat (FloatFormat.convert .double .single x.bits.toNat)⟩

/-- Not a number. -/
def isNaN (x : Binary64) : Bool := FloatFormat.double.isNaN x.bits.toNat

/-- Equal as numbers. -/
def equal (x y : Binary64) : Bool := FloatFormat.double.equal x.bits.toNat y.bits.toNat

/-- The number nearest to an integer. -/
def ofInt (n : Int) : Binary64 :=
  ⟨.ofNat (FloatFormat.double.sign (n < 0) + FloatFormat.double.magnitudeBits n.natAbs 0)⟩

end Binary64

end RecordLayout
