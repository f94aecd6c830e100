import Reparse.Text.Position

/-! # Text edits -/
namespace Reparse
open Text

/-- The replacement of a range of bytes. Offsets and points of one edit refer to the text as the
edits before it left it. -/
structure Edit where
  start : Nat
  oldEnd : Nat
  newEnd : Nat
  startPoint : Position := .zero
  oldEndPoint : Position := .zero
  newEndPoint : Position := .zero
deriving DecidableEq, Inhabited

namespace Edit

/-- The edit that replaces `range` of `source`, cut to the source, by `replacement`. -/
def replace (source : Bytes) (range : Range) (replacement : Bytes) : Edit :=
  let oldEnd := min range.stop source.size
  let start := min range.start oldEnd
  let startPoint := Position.zero.advance (source.extract 0 start)
  { start, oldEnd
    newEnd := start + replacement.size
    startPoint
    oldEndPoint := startPoint.advance (source.extract start oldEnd)
    newEndPoint := startPoint.advance replacement }

def insert (source : Bytes) (offset : Nat) (text : Bytes) : Edit :=
  replace source (.empty offset) text
def delete (source : Bytes) (range : Range) : Edit := replace source range #[]

/-- The source after a replacement, with the edit. -/
def splice (source : Bytes) (range : Range) (replacement : Bytes) : Bytes × Edit :=
  let e := replace source range replacement
  (source.extract 0 e.start ++ replacement ++ source.extract e.oldEnd source.size, e)

/-- How many bytes the text gains; negative if it loses some. -/
def delta (e : Edit) : Int := (e.newEnd : Int) - e.oldEnd

/-- Whether the edit may change a token from `start` to `stop` that was found by reading `lookahead`
bytes more. -/
def touches (e : Edit) (start stop lookahead : Nat) : Bool :=
  e.start < stop + lookahead && start ≤ e.oldEnd

/-- Where the edit moves an offset. -/
def shift (e : Edit) (offset : Nat) : Nat :=
  if e.oldEnd ≤ offset then (offset + e.delta).toNat else offset

end Edit
end Reparse
