import RecordLayout.Number.Binary

/-!
# Shortest decimals

The shortest decimal of a binary number has the fewest digits among those that read back as it, and
is the nearest to it of these; of two equally near ones the larger is taken. A decimal reads back
exactly when it lies in the interval of reals that round to the number: half a unit of the last
place on each side, only a quarter below a power of two, the ends included for an even significand.

The search runs over decimal grids from coarse to fine. On each grid only the two neighbours of the
number can be the nearest point, so the first grid with a neighbour in the interval answers.
-/

namespace RecordLayout

/-- The decimal `digits * 10 ^ exponent`. -/
structure Decimal where
  digits : Nat
  exponent : Int
  deriving DecidableEq, Repr

namespace Decimal

/-- A positive real given by quarters: the number is `4 * m` quarters of a unit, `below` quarters of
it and two above round to it, and a quarter is `num / den`. -/
structure Interval where
  m : Nat
  below : Nat
  closed : Bool
  num : Nat
  den : Nat

/-- A fraction is inside the interval: `a / b`, written as `a` for the given denominator. -/
def Interval.contains (i : Interval) (a b : Nat) : Bool :=
  let low := (4 * i.m - i.below) * i.num * b
  let high := (4 * i.m + 2) * i.num * b
  if i.closed then low ≤ a * i.den && a * i.den ≤ high
  else low < a * i.den && a * i.den < high

/-- The numerator and denominator of a power of ten. -/
def tenTo (p : Int) : Nat × Nat :=
  if 0 ≤ p then (10 ^ p.toNat, 1) else (1, 10 ^ (-p).toNat)

/-- The point of the grid of multiples of `10 ^ p` that reads back, if there is one, and the nearer
if there are two. -/
def onGrid (i : Interval) (p : Int) : Option Decimal :=
  let (num, den) := tenTo p
  let value := 4 * i.m * i.num * den
  let unit := i.den * num
  let n := value / unit
  let rest := value % unit
  let down := i.contains (n * num) den
  let up := i.contains ((n + 1) * num) den
  if down && up then
    if 2 * rest < unit then some ⟨n, p⟩ else some ⟨n + 1, p⟩
  else if down then some ⟨n, p⟩
  else if up then some ⟨n + 1, p⟩
  else none

/-- The answer of the coarsest of the grids `p`, `p - 1`, … that has one. -/
def search (i : Interval) (p : Int) : Nat → Decimal
  | 0 => ⟨0, 0⟩
  | steps + 1 =>
    match onGrid i p with
    | some d => d
    | none => search i (p - 1) steps

/-- A power of ten that is at least `m * 2 ^ e` in exponent: the first grid of the search. -/
def startingGrid (m : Nat) (e : Int) : Int :=
  (e + (Nat.log2 m : Nat) + 1) * 30103 / 100000 + 1

/-- The shortest decimal of `m * 2 ^ e`, a positive number of the format. Grids finer than the
twentieth are never needed for 64 bits. -/
def shortest (f : FloatFormat) (m : Nat) (e : Int) : Decimal :=
  let below := if m = 2 ^ f.fraction ∧ f.least < e then 1 else 2
  let quarter := e - 2
  let interval : Interval :=
    { m := m, below := below, closed := m % 2 == 0
      num := 2 ^ quarter.toNat, den := 2 ^ (-quarter).toNat }
  search interval (startingGrid m e) 24

end Decimal

/-- How decimals are written. -/
structure DecimalStyle where
  /-- A whole number keeps a point and a zero. -/
  keepsPoint : Bool
  /-- Numbers whose leading digit stands outside this range of places are written with an
  exponent. -/
  positional : Option (Int × Int)

namespace DecimalStyle

/-- Plain numerals: every digit in place, no point in whole numbers. -/
def plain : DecimalStyle := ⟨false, none⟩

/-- Numerals that show they are not integers, with an exponent below `1e-4` and from `1e16`. -/
def marked : DecimalStyle := ⟨true, some (-4, 16)⟩

/-- A decimal with every digit in place. -/
def place (style : DecimalStyle) (d : Decimal) : String :=
  let digits := Nat.toDigits 10 d.digits
  if 0 ≤ d.exponent then
    String.ofList (digits ++ List.replicate d.exponent.toNat '0') ++
      (if style.keepsPoint then ".0" else "")
  else
    let after := (-d.exponent).toNat
    if digits.length ≤ after then
      String.ofList ('0' :: '.' :: (List.replicate (after - digits.length) '0' ++ digits))
    else
      let whole := digits.length - after
      String.ofList (digits.take whole ++ '.' :: digits.drop whole)

/-- A decimal with one digit before the point and an exponent. -/
def scientific (d : Decimal) : String :=
  let digits := Nat.toDigits 10 d.digits
  let exponent := d.exponent + (digits.length - 1 : Nat)
  String.ofList (digits.take 1) ++
    (if digits.length ≤ 1 then "" else "." ++ String.ofList (digits.drop 1)) ++
    "e" ++ toString exponent

/-- A positive decimal. -/
def render (style : DecimalStyle) (d : Decimal) : String :=
  let leading := d.exponent + ((Nat.toDigits 10 d.digits).length - 1 : Nat)
  match style.positional with
  | none => style.place d
  | some (low, high) => if low ≤ leading ∧ leading < high then style.place d else scientific d

/-- A number of a binary format, given by its bits. -/
def number (style : DecimalStyle) (f : FloatFormat) (bits : Nat) : String :=
  match f.parts bits with
  | .nan _ _ => "NaN"
  | .infinite negative => if negative then "-inf" else "inf"
  | .finite negative m e =>
    (if negative then "-" else "") ++
      (if m = 0 then (if style.keepsPoint then "0.0" else "0")
       else style.render (Decimal.shortest f m e))

end DecimalStyle

/-- The text of a number of the 32-bit format. -/
def Binary32.render (style : DecimalStyle) (x : Binary32) : String :=
  style.number .single x.bits.toNat

/-- The text of a number of the 64-bit format. -/
def Binary64.render (style : DecimalStyle) (x : Binary64) : String :=
  style.number .double x.bits.toNat

end RecordLayout
