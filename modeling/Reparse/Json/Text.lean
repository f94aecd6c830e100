import Reparse.Json.Value

/-! # Strings and integers as JSON text -/
namespace Reparse.Json
open Text

def hexDigitByte (n : Nat) : UInt8 := (if n < 10 then 48 + n else 87 + n).toUInt8

def hexValue? (b : UInt8) : Option Nat :=
  if 48 ≤ b && b ≤ 57 then some (b.toNat - 48)
  else if 97 ≤ b && b ≤ 102 then some (b.toNat - 87)
  else if 65 ≤ b && b ≤ 70 then some (b.toNat - 55)
  else none

/-- Characters with a short escape, and the letter of each. -/
def shortEscapes : List (UInt8 × UInt8) :=
  [(34, 34), (92, 92), (8, 98), (12, 102), (10, 110), (13, 114), (9, 116)]

/-- Quotes, backslashes and control characters are escaped; the rest stays as it is. -/
def escapeByte (b : UInt8) : List UInt8 :=
  match shortEscapes.lookup b with
  | some letter => [backslashByte, letter]
  | none =>
    if b < 32 then
      backslashByte :: ascii "u00" ++ [hexDigitByte (b.toNat / 16), hexDigitByte (b.toNat % 16)]
    else [b]

def escape (s : String) : List UInt8 := (ofString s).toList.flatMap escapeByte

/-- The number written as four hexadecimal digits, and what follows. -/
def hex4? : List UInt8 → Option (Nat × List UInt8)
  | a :: b :: c :: d :: rest => do
    return ((((← hexValue? a) * 16 + (← hexValue? b)) * 16 + (← hexValue? c)) * 16 +
      (← hexValue? d), rest)
  | _ => none

/-- The byte that a letter stands for after a backslash. -/
def unescapeLetter? (letter : UInt8) : Option UInt8 :=
  if letter = 47 then some 47 else (shortEscapes.find? (·.2 == letter)).map (·.1)

def isHighSurrogate (n : Nat) : Bool := 0xD800 ≤ n && n < 0xDC00
def isLowSurrogate (n : Nat) : Bool := 0xDC00 ≤ n && n < 0xE000

/-- The character of a `u` escape after its backslash and letter: one unit, or two that form a
pair. -/
def unicodeEscape? (input : List UInt8) : Option (Char × List UInt8) := do
  let (unit, rest) ← hex4? input
  if isLowSurrogate unit then none
  else if isHighSurrogate unit then
    match rest with
    | 92 :: 117 :: rest =>
      let (low, rest) ← hex4? rest
      if isLowSurrogate low then
        some (Char.ofNat (0x10000 + (unit - 0xD800) * 0x400 + (low - 0xDC00)), rest)
      else none
    | _ => none
  else some (Char.ofNat unit, rest)

/-- Resolves escapes; `done` is what is resolved so far, last byte first. At most `fuel` bytes
remain. -/
def unescapeFrom : (fuel : Nat) → (done input : List UInt8) → Option (List UInt8)
  | _, done, [] => some done.reverse
  | 0, _, _ => none
  | fuel + 1, done, b :: rest =>
    if b ≠ backslashByte then unescapeFrom fuel (b :: done) rest
    else match rest with
      | [] => none
      | letter :: rest =>
        if letter = 117 then
          match unicodeEscape? rest with
          | some (c, rest) => unescapeFrom fuel ((String.utf8EncodeChar c).reverse ++ done) rest
          | none => none
        else match unescapeLetter? letter with
          | some b => unescapeFrom fuel (b :: done) rest
          | none => none

/-- The string that an escaped text stands for, if its escapes and its encoding are valid. -/
def unescape? (escaped : List UInt8) : Option String := do
  let bytes ← unescapeFrom escaped.length [] escaped
  String.fromUTF8? ⟨bytes.toArray⟩

def ofString (s : String) : Value := .string (escape s)

/-- Decimal digits without leading zeros. -/
def decimal (n : Nat) : List UInt8 :=
  if n < 10 then [(48 + n).toUInt8] else decimal (n / 10) ++ [(48 + n % 10).toUInt8]

def ofNat (n : Nat) : Value := .number (decimal n)
def ofInt (n : Int) : Value := .number (if n < 0 then 45 :: decimal n.natAbs else decimal n.natAbs)

def isDigit (b : UInt8) : Bool := 48 ≤ b && b ≤ 57

/-- The value of a text of digits alone. -/
def digits? (text : List UInt8) : Option Nat :=
  if text.all isDigit then some (text.foldl (fun n b => n * 10 + (b.toNat - 48)) 0) else none

/-- An integer without fraction or exponent. A negative zero is none. -/
def integer? : Value → Option Int
  | .number (45 :: text) => do
    let n ← digits? text
    if n = 0 then none else some (-(n : Int))
  | .number text => (digits? text).map Int.ofNat
  | _ => none

end Reparse.Json
