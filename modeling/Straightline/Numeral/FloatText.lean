import Straightline.Numeral.Integer
import Straightline.Numeral.Shortest
import Straightline.Text.Blank

/-!
Floating-point constants as text. They are read in positional or exponent form and written with
the fewest digits that read back: positionally, with a point, from `1e-4` up to below `1e16`, else
with an exponent.
-/
namespace Straightline.Numeral.Binary64

open Text (stripEnd)

/-- Reads an exponent, which may be missing: a mark, a sign, then digits. -/
def exponent? : List Char → Option Int
  | [] => some 0
  | c :: rest =>
    if c = 'e' ∨ c = 'E' then
      let (negative, digits) := splitSign rest
      (natural? digits).map fun n => if negative then -(n : Int) else n
    else none

/-- Reads an unsigned number in digits: at least one of them, before or after the point. -/
def decimalBits? (s : List Char) : Option Nat := do
  let whole := s.takeWhile Char.isDigit
  let (fraction, rest) := match s.dropWhile Char.isDigit with
    | '.' :: more => (more.takeWhile Char.isDigit, more.dropWhile Char.isDigit)
    | rest => ([], rest)
  if whole.isEmpty && fraction.isEmpty then none
  else
    let exp ← exponent? rest
    some (ofDecimal (ofDigits (whole ++ fraction)) (exp - fraction.length))

/-- Reads an unsigned number, or the name of a special value in any letter case. -/
def unsignedBits? (s : List Char) : Option Nat :=
  let word := s.map Char.toLower
  if word = "inf".toList ∨ word = "infinity".toList then some infinityBits
  else if word = "nan".toList then some nanBits
  else decimalBits? s

def ofText? (s : List Char) : Option Binary64 :=
  let (negative, rest) := splitSign s
  (unsignedBits? rest).map (ofBits negative)

def zeros (n : Nat) : List Char := List.replicate n '0'

/-- Digits with a point and no exponent: `digits * 10 ^ exp`. -/
def positional (digits : List Char) (exp : Int) : List Char :=
  let point := digits.length + exp
  if 0 ≤ exp then digits ++ zeros exp.toNat ++ ['.', '0']
  else if 0 < point then digits.take point.toNat ++ '.' :: digits.drop point.toNat
  else '0' :: '.' :: (zeros (-point).toNat ++ digits)

/-- One digit before the point, and the exponent `lead` of that digit. -/
def scientific (digits : List Char) (lead : Int) : List Char :=
  let mantissa := match digits with
    | d :: e :: rest => d :: '.' :: e :: rest
    | ds => ds
  mantissa ++ 'e' :: (toString lead).toList

def finiteText (mantissa : Nat) (exp : Int) : List Char :=
  if mantissa = 0 then ['0', '.', '0']
  else
    let d := shortest mantissa exp
    let all := Nat.toDigits 10 d.digits
    let digits := stripEnd (· = '0') all
    let exp := d.exp + (all.length - digits.length : Nat)
    let lead := digits.length + exp - 1
    if -4 ≤ lead ∧ lead < 16 then positional digits exp else scientific digits lead

def text (x : Binary64) : String :=
  let sign := if x.negative then ['-'] else []
  match x.magnitude with
  | .nan => "NaN"
  | .infinite => String.ofList (sign ++ "inf".toList)
  | .finite m q => String.ofList (sign ++ finiteText m q)

end Straightline.Numeral.Binary64
