import Reparse.Text.Size

/-! # Bytes as text: strict decoding, and lossy decoding for messages -/
namespace Reparse.Text

/-- The text that the bytes encode, if they are valid UTF-8. -/
def toString? (bytes : Bytes) : Option String := String.fromUTF8? ⟨bytes⟩

def isContinuation (b : UInt8) : Bool := 0x80 ≤ b && b < 0xC0

/-- Which second bytes may follow the first byte of a longer character. -/
def secondByteRange (first : UInt8) : UInt8 × UInt8 :=
  if first = 0xE0 then (0xA0, 0xBF) else if first = 0xED then (0x80, 0x9F)
  else if first = 0xF0 then (0x90, 0xBF) else if first = 0xF4 then (0x80, 0x8F) else (0x80, 0xBF)

/-- The length of a character by its first byte; 0 for a byte that cannot start one. -/
def charWidth (first : UInt8) : Nat :=
  if first < 0x80 then 1 else if first < 0xC2 then 0 else if first < 0xE0 then 2
  else if first < 0xF0 then 3 else if first < 0xF5 then 4 else 0

/-- How many of `rest` (at most `n`) continue a character whose first byte is `first`. -/
def continuationCount (first : UInt8) (rest : List UInt8) (n : Nat) : Nat :=
  match rest.take n with
  | [] => 0
  | second :: others =>
    let (lo, hi) := secondByteRange first
    if lo ≤ second && second ≤ hi then 1 + (others.takeWhile isContinuation).length else 0

def replacementChar : Char := '\uFFFD'

/-- Decodes valid characters; each longest beginning of a character that breaks off, and each byte
that starts none, becomes one replacement character. -/
def lossyChars : List UInt8 → List Char
  | [] => []
  | first :: rest =>
    let width := charWidth first
    let found := continuationCount first rest (width - 1)
    let c := if width ≠ 0 ∧ found + 1 = width then
        let leading := if width = 1 then first.toNat else first.toNat % (1 <<< (7 - width))
        Char.ofNat ((rest.take found).foldl (fun n b => n * 64 + b.toNat % 64) leading)
      else replacementChar
    c :: lossyChars (rest.drop found)
termination_by bytes => bytes.length
decreasing_by simp only [List.length_drop, List.length_cons]; omega

def lossy (bytes : Bytes) : String := String.ofList (lossyChars bytes.toList)

end Reparse.Text
