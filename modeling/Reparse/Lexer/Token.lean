import Reparse.Symbol
import Reparse.Text.Position

/-! # Tokens -/
namespace Reparse.Lexer
open Text

/-- Marks on a token. -/
structure Flags where
  /-- No rule matched the byte. -/
  error : Bool := false
  /-- The text also matches the word pattern, so the token may stand in for a word. -/
  word : Bool := false
deriving DecidableEq, Hashable, Inhabited

def Flags.code (f : Flags) : Nat := f.error.toNat + 2 * f.word.toNat

/-- A token with its place in the text. Modes are numbered; mode 0 is the default. -/
structure Token where
  kind : Kind
  range : Range
  start : Position
  stop : Position
  /-- The mode it was read in. -/
  mode : Nat
  /-- The mode in which reading continues. -/
  nextMode : Nat
  /-- How many bytes past its end were read to find it. -/
  lookahead : Nat
  flags : Flags
deriving DecidableEq, Inhabited

/-- The place of the lexer between two tokens. -/
structure Cursor where
  offset : Nat
  point : Position
  mode : Nat
deriving DecidableEq, Inhabited

def Cursor.start : Cursor := ⟨0, .zero, 0⟩
def Cursor.after (t : Token) : Cursor := ⟨t.range.stop, t.stop, t.nextMode⟩

/-- A byte at which no rule matches. -/
structure Unrecognized where
  offset : Nat
  byte : UInt8
  point : Position
  mode : Nat
  /-- How many bytes after it were read before giving up. -/
  lookahead : Nat
deriving DecidableEq, Inhabited

namespace Unrecognized

/-- `examinedEnd` is one past the last byte read. -/
def atCursor (c : Cursor) (byte : UInt8) (examinedEnd : Nat) : Unrecognized :=
  ⟨clamp c.offset, byte, c.point, c.mode, clamp (examinedEnd - (c.offset + 1))⟩

def range (u : Unrecognized) : Range := .ofLength u.offset 1

/-- The token of one byte that stands for it. -/
def toToken (u : Unrecognized) : Token where
  kind := .error
  range := u.range
  start := u.point
  stop := u.point.advance #[u.byte]
  mode := u.mode
  nextMode := u.mode
  lookahead := u.lookahead
  flags := { error := true }

def hexDigit (n : Nat) : Char := if n < 10 then Char.ofNat (48 + n) else Char.ofNat (87 + n)

/-- A byte as two hexadecimal digits. -/
def hexByte (b : UInt8) : String := String.ofList [hexDigit (b.toNat / 16), hexDigit (b.toNat % 16)]

def message (u : Unrecognized) : String :=
  s!"unrecognized byte 0x{hexByte u.byte} at {u.point.render}"

end Unrecognized
end Reparse.Lexer
