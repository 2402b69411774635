import Straightline.Numeral.Binary64

/-!
The shortest decimal that reads back as a given number: of the decimals with the fewest digits the
nearest one, and of two equally near the greater.
-/
namespace Straightline.Numeral

/-- The decimal `digits * 10 ^ exp`. -/
structure Decimal where
  digits : Nat
  exp : Int
deriving DecidableEq, Repr

def Decimal.value (d : Decimal) : Rat := d.digits * (10 : Rat) ^ d.exp

/-- The numbers between two bounds, which belong to it or not. -/
structure Interval where
  lower : Rat
  upper : Rat
  closed : Bool

namespace Interval

def contains (i : Interval) (x : Rat) : Bool :=
  if i.closed then i.lower ≤ x && x ≤ i.upper else i.lower < x && x < i.upper

/-- What rounds to `mantissa * 2 ^ exp`: half way to either neighbour, and the ends just when the
mantissa is even. Below a power of two the neighbour is nearer. -/
def ofBinary (mantissa : Nat) (exp : Int) : Interval :=
  let unit := (2 : Rat) ^ (exp - 2)
  let below := if mantissa = Binary64.hiddenBit ∧ Binary64.minExp < exp then 1 else 2
  { lower := (4 * mantissa - below) * unit
    upper := (4 * mantissa + 2) * unit
    closed := mantissa % 2 = 0 }

end Interval

/-- The least `k` with `x < 10 ^ k`, for positive `x`. -/
def leadingExp (x : Rat) : Int :=
  if 1 ≤ x then (Nat.toDigits 10 x.floor.toNat).length
  else 1 - (Nat.toDigits 10 ((x.den - 1) / x.num.toNat)).length

/-- The better of the two neighbours of `x` among the multiples of `10 ^ exp`, if one lies in `i`.
-/
def onGrid? (i : Interval) (x : Rat) (exp : Int) : Option Decimal :=
  let floor := (x / (10 : Rat) ^ exp).floor.toNat
  let below : Decimal := ⟨floor, exp⟩
  let above : Decimal := ⟨floor + 1, exp⟩
  match i.contains below.value, i.contains above.value with
  | true, true => some (if below.value + above.value ≤ 2 * x then above else below)
  | true, false => some below
  | false, true => some above
  | false, false => none

/-- The decimal that equals `mantissa * 2 ^ exp`: a negative power of two is a power of five over
the same power of ten. -/
def Decimal.exact (mantissa : Nat) (exp : Int) : Decimal :=
  if 0 ≤ exp then ⟨mantissa <<< exp.toNat, 0⟩ else ⟨mantissa * Nat.pow 5 (-exp).toNat, exp⟩

/-- The shortest decimal for `mantissa * 2 ^ exp`, which is not zero. Seventeen digits suffice in
practice; past them the decimal is exact. -/
def shortest (mantissa : Nat) (exp : Int) : Decimal :=
  let x : Rat := mantissa * (2 : Rat) ^ exp
  let i := Interval.ofBinary mantissa exp
  let lead := leadingExp x
  let found? := (List.range 17).findSome? fun n : Nat => onGrid? i x (lead - (n + 1 : Nat))
  found?.getD (.exact mantissa exp)

end Straightline.Numeral
