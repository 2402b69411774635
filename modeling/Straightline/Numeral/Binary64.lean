/-!
Floating-point constants as 64-bit patterns. Their values are exact rationals, so rounding and
printing never go through machine arithmetic, and two constants are equal when their patterns are.
-/
namespace Straightline.Numeral

structure Binary64 where
  bits : UInt64
deriving DecidableEq, Repr

namespace Binary64

/-- What a pattern stands for, its sign aside. -/
inductive Magnitude
  | nan
  | infinite
  /-- The number `mantissa * 2 ^ exp`. -/
  | finite (mantissa : Nat) (exp : Int)
deriving DecidableEq, Repr

/-- The exponent of the smallest numbers. -/
def minExp : Int := -1074

/-- The sign bit, which is the highest of the 64. -/
def signBit : Nat := 0x8000000000000000

/-- One in the exponent field: the weight that a mantissa of 53 bits has beyond its fraction. -/
def hiddenBit : Nat := 0x10000000000000

/-- The pattern of infinity, without sign. -/
def infinityBits : Nat := 0x7FF0000000000000

/-- The pattern of a quiet NaN, without sign. -/
def nanBits : Nat := 0x7FF8000000000000

def negative (x : Binary64) : Bool := signBit ≤ x.bits.toNat

def magnitude (x : Binary64) : Magnitude :=
  let field : Nat := x.bits.toNat / hiddenBit % 0x800
  let fraction : Nat := x.bits.toNat % hiddenBit
  if field = 0x7FF then if fraction = 0 then .infinite else .nan
  else if field = 0 then .finite fraction minExp
  else .finite (hiddenBit + fraction) (minExp + (field - 1 : Nat))

/-- The pattern with the given sign over unsigned bits. -/
def ofBits (negative : Bool) (bits : Nat) : Binary64 :=
  ⟨UInt64.ofNat ((if negative then signBit else 0) + bits)⟩

/-- The nearest integer; a half goes to the even neighbour. -/
def roundHalfEven (x : Rat) : Int :=
  let low := x.floor
  let rest := x - low
  if rest < 1 / 2 then low
  else if 1 / 2 < rest then low + 1
  else if low % 2 = 0 then low else low + 1

/-- The exponent of the greatest power of two that is at most `x`, for positive `x`. -/
def log2 (x : Rat) : Int :=
  let guess : Int := (Nat.log2 x.num.toNat : Int) - Nat.log2 x.den
  if (2 : Rat) ^ guess ≤ x then guess else guess - 1

/-- The unsigned bits of the number nearest to a positive `x`. Patterns ascend with the numbers they
stand for, so that a mantissa which rounds up to a power of two carries into the exponent. -/
def nearestBits (x : Rat) : Nat :=
  let exp := max (log2 x - 52) minExp
  let mantissa := roundHalfEven (x / (2 : Rat) ^ exp)
  min ((exp - minExp) * hiddenBit + mantissa).toNat infinityBits

/-- The unsigned bits of the number nearest to `digits * 10 ^ exp`. Powers of ten far outside the
range are decided without computing them. -/
def ofDecimal (digits : Nat) (exp : Int) : Nat :=
  let top := (Nat.toDigits 10 digits).length + exp
  if digits = 0 ∨ top < -330 then 0
  else if 310 < top then infinityBits
  else nearestBits (digits * (10 : Rat) ^ exp)

end Binary64

end Straightline.Numeral
