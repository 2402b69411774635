/-! Positions in source text: a file and a half-open range of offsets in it. -/
namespace Straightline

structure Span where
  file : Nat
  start : Nat
  stop : Nat
deriving DecidableEq, Repr

namespace Span

/-- The span of what the source does not spell out. -/
def nowhere : Span := ⟨0, 0, 0⟩

/-- An empty range at the very start carries no position, whichever file it names. -/
def isNowhere (s : Span) : Bool := s.start = 0 ∧ s.stop = 0

def length (s : Span) : Nat := s.stop - s.start

/-- The least range that covers both; the file is the first one's. -/
def merge (s t : Span) : Span := ⟨s.file, min s.start t.start, max s.stop t.stop⟩

/-- Itself, or `fallback` if it carries no position. -/
def orElse (s fallback : Span) : Span := if s.isNowhere then fallback else s

end Span

/-- Something that was read at a place in the source. -/
structure Located (α : Type) where
  val : α
  span : Span
deriving DecidableEq, Repr

end Straightline
