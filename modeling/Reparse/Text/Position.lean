import Reparse.Data.Search
import Reparse.Text.Size

/-! # Lines and columns, and their conversion to byte offsets -/
namespace Reparse.Text
open Data

/-- A zero-based line and a zero-based column counted in bytes. -/
structure Position where
  line : Nat
  column : Nat
deriving DecidableEq, Inhabited

def lineFeed : UInt8 := 10

def lastLineFeed? (bytes : List UInt8) : Option Nat :=
  (bytes.reverse.findIdx? (· == lineFeed)).map (bytes.length - 1 - ·)

namespace Position

def zero : Position := ⟨0, 0⟩

/-- Where a walk over `bytes` from `p` ends. -/
def advance (p : Position) (bytes : Bytes) : Position :=
  match lastLineFeed? bytes.toList with
  | some last => ⟨plus p.line (clamp (bytes.toList.count lineFeed)), clamp (bytes.size - last - 1)⟩
  | none => ⟨p.line, plus p.column (clamp bytes.size)⟩

/-- Editors count from one. -/
def render (p : Position) : String := s!"{p.line + 1}:{p.column + 1}"

end Position

/-- The offsets at which the lines of a text start, in increasing order. -/
structure LineIndex where
  lineStarts : Array Nat
  textLength : Nat

namespace LineIndex

def ofText (text : Bytes) : LineIndex where
  lineStarts := (Array.range text.size).foldl
    (fun starts i => if text[i]? = some lineFeed then starts.push (clamp (i + 1)) else starts) #[0]
  textLength := clamp text.size

/-- Offsets past the end stand for the end. -/
def position (index : LineIndex) (offset : Nat) : Position :=
  let offset := min offset index.textLength
  let line := match binarySearch index.lineStarts.size fun i =>
      compare (index.lineStarts[i]?.getD 0) offset with
    | .ok i => i
    | .error i => i - 1
  ⟨line, offset - index.lineStarts[line]?.getD 0⟩

/-- The offset of a position; none if there is no such line or the line is too short. -/
def offset? (index : LineIndex) (p : Position) : Option Nat := do
  let start ← index.lineStarts[p.line]?
  let next := index.lineStarts[p.line + 1]?.getD (plus index.textLength 1)
  let offset := plus start p.column
  if offset < next then some offset else none

def lineCount (index : LineIndex) : Nat := index.lineStarts.size
def lineStart? (index : LineIndex) (line : Nat) : Option Nat := index.lineStarts[line]?

end LineIndex
end Reparse.Text
