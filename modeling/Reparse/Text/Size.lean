/-! # Byte sizes, which saturate, and half-open byte ranges -/
namespace Reparse.Text

/-- A source text or a piece of one. -/
abbrev Bytes := Array UInt8

/-- No size or offset is larger; sums beyond it stay here. -/
def maxSize : Nat := 4294967295

/-- A count of bytes as a size. -/
def clamp (n : Nat) : Nat := min n maxSize

/-- Saturating sum of two sizes. Their saturating difference is subtraction of natural numbers. -/
def plus (a b : Nat) : Nat := clamp (a + b)

theorem clamp_of_le {n : Nat} (h : n ≤ maxSize) : clamp n = n := Nat.min_eq_left h

theorem plus_of_le {a b : Nat} (h : a + b ≤ maxSize) : plus a b = a + b := clamp_of_le h

/-- The bytes of a string in UTF-8. -/
def ofString (s : String) : Bytes := s.toUTF8.data

/-- The bytes from `start` up to `stop`. -/
structure Range where
  start : Nat
  stop : Nat
deriving DecidableEq, Inhabited

namespace Range

def ofLength (start length : Nat) : Range := ⟨start, start + length⟩
def empty (offset : Nat) : Range := ⟨offset, offset⟩
def length (r : Range) : Nat := r.stop - r.start
def isEmpty (r : Range) : Bool := r.start == r.stop
def contains (r : Range) (offset : Nat) : Bool := r.start ≤ offset && offset < r.stop
def encloses (r other : Range) : Bool := r.start ≤ other.start && other.stop ≤ r.stop

/-- The common part, if it holds a byte. -/
def intersect (r other : Range) : Option Range :=
  let start := max r.start other.start
  let stop := min r.stop other.stop
  if start < stop then some ⟨start, stop⟩ else none

def render (r : Range) : String := s!"{r.start}..{r.stop}"

/-- The bytes of `text` in the range, if it lies inside. -/
def slice? (r : Range) (text : Bytes) : Option Bytes :=
  if r.start ≤ r.stop ∧ r.stop ≤ text.size then some (text.extract r.start r.stop) else none

end Range
end Reparse.Text
