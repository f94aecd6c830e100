import Reparse.Data.Search
import Reparse.Text.Size

/-! # Sets of bytes as sorted ranges -/
namespace Reparse.Lexer
open Data

/-- A set of bytes as inclusive ranges, which `ofRanges` keeps sorted, disjoint and not adjacent. -/
structure ByteSet where
  ranges : List (UInt8 × UInt8)
deriving DecidableEq, Hashable, Inhabited

namespace ByteSet

def rangeLE (r s : UInt8 × UInt8) : Bool := r.1 < s.1 || (r.1 == s.1 && r.2 ≤ s.2)

/-- Joins the current range with the sorted ranges after it while they overlap or touch. -/
def mergeFrom (current : UInt8 × UInt8) : List (UInt8 × UInt8) → List (UInt8 × UInt8)
  | [] => [current]
  | r :: rest =>
    if r.1.toNat ≤ current.2.toNat + 1 then mergeFrom (current.1, max current.2 r.2) rest
    else current :: mergeFrom r rest

def merge : List (UInt8 × UInt8) → List (UInt8 × UInt8)
  | [] => []
  | r :: rest => mergeFrom r rest

/-- The bytes covered by some pair whose ends are in order. -/
def ofRanges (pairs : List (UInt8 × UInt8)) : ByteSet :=
  ⟨merge ((pairs.filter fun r => r.1 ≤ r.2).mergeSort rangeLE)⟩

def single (b : UInt8) : ByteSet := ofRanges [(b, b)]
def ofBytes (bytes : List UInt8) : ByteSet := ofRanges (bytes.map fun b => (b, b))
def ofString (s : String) : ByteSet := ofBytes (Text.ofString s).toList

/-- A character as a byte; those beyond one byte count as the last byte. -/
def byteOfChar (c : Char) : UInt8 := (min c.toNat 255).toUInt8

def charRange (lo hi : Char) : ByteSet := ofRanges [(byteOfChar lo, byteOfChar hi)]

def union (s t : ByteSet) : ByteSet := ofRanges (s.ranges ++ t.ranges)

/-- The gaps between sorted ranges, from `next` on. -/
def gaps (next : Nat) : List (UInt8 × UInt8) → List (UInt8 × UInt8)
  | [] => if next ≤ 255 then [(next.toUInt8, 255)] else []
  | r :: rest =>
    let after := gaps (r.2.toNat + 1) rest
    if next < r.1.toNat then (next.toUInt8, r.1 - 1) :: after else after

def complement (s : ByteSet) : ByteSet := ⟨gaps 0 s.ranges⟩

def digits : ByteSet := charRange '0' '9'
def hexDigits : ByteSet := ofRanges [(48, 57), (97, 102), (65, 70)]
def letters : ByteSet := ofRanges [(97, 122), (65, 90)]
def lettersAndDigits : ByteSet := letters.union digits
def blanks : ByteSet := ofString " \t\r\n\x0c"
def notLineFeed : ByteSet := (single 10).complement
def all : ByteSet := ofRanges [(0, 255)]

/-- Where a byte lies with respect to a range. -/
def compareRange (r : UInt8 × UInt8) (b : UInt8) : Ordering :=
  if b < r.1 then .gt else if r.2 < b then .lt else .eq

def contains (s : ByteSet) (b : UInt8) : Bool :=
  let ranges := s.ranges.toArray
  (binarySearch ranges.size fun i => compareRange (ranges[i]?.getD (0, 0)) b).isOk

def isEmpty (s : ByteSet) : Bool := s.ranges.isEmpty

end ByteSet
end Reparse.Lexer
