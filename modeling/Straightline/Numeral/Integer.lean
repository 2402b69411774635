/-! Integers read from text: ASCII digits after an optional sign, and nothing else. -/
namespace Straightline.Numeral

/-- The number that decimal digits spell. -/
def ofDigits (digits : List Char) : Nat :=
  digits.foldl (fun n c => 10 * n + (c.toNat - '0'.toNat)) 0

/-- Reads one or more digits. -/
def natural? (s : List Char) : Option Nat :=
  if s.isEmpty || !s.all Char.isDigit then none else some (ofDigits s)

/-- Takes a sign off the front; `true` stands for minus. -/
def splitSign : List Char → Bool × List Char
  | '-' :: rest => (true, rest)
  | '+' :: rest => (false, rest)
  | s => (false, s)

/-- Reads a signed integer that fits in 64 bits. -/
def int64? (s : List Char) : Option Int64 := do
  let (negative, digits) := splitSign s
  let n ← natural? digits
  let value : Int := if negative then -n else n
  if Int64.minValue.toInt ≤ value ∧ value ≤ Int64.maxValue.toInt then some (Int64.ofInt value)
  else none

/-- Reads an unsigned integer that fits in 64 bits; a plus is the only sign allowed. -/
def word64? (s : List Char) : Option Nat := do
  let digits := match s with
    | '+' :: rest => rest
    | s => s
  let n ← natural? digits
  if n < UInt64.size then some n else none

end Straightline.Numeral
