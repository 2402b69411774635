/-! White space, and characters stripped from the two ends of a text. -/
namespace Straightline.Text

/-- The code points with the White_Space property, as inclusive ranges. -/
def blankRanges : List (Nat × Nat) :=
  [(0x9, 0xD), (0x20, 0x20), (0x85, 0x85), (0xA0, 0xA0), (0x1680, 0x1680), (0x2000, 0x200A),
    (0x2028, 0x2029), (0x202F, 0x202F), (0x205F, 0x205F), (0x3000, 0x3000)]

/-- The code point of `c` lies in one of the inclusive ranges. -/
def inRanges (ranges : List (Nat × Nat)) (c : Char) : Bool :=
  ranges.any fun r => r.1 ≤ c.toNat && c.toNat ≤ r.2

def isBlank (c : Char) : Bool := inRanges blankRanges c

def stripEnd (p : Char → Bool) (s : List Char) : List Char := (s.reverse.dropWhile p).reverse

/-- Drops the characters that satisfy `p` from both ends, as many as there are. -/
def strip (p : Char → Bool) (s : List Char) : List Char := stripEnd p (s.dropWhile p)

def trimEnd (s : List Char) : List Char := stripEnd isBlank s

def trim (s : List Char) : List Char := strip isBlank s

end Straightline.Text
