import Reparse.Text.Size

/-! # JSON documents as values, and their compact and indented text

Strings stay escaped and numbers stay text, so a document can be read before it is known which of
its parts matter. -/
namespace Reparse.Json
open Text

inductive Value where
  | null
  | bool (b : Bool)
  /-- The digits, sign, point and exponent as written. -/
  | number (written : List UInt8)
  /-- What stands between the quotes. -/
  | string (escaped : List UInt8)
  | array (items : List Value)
  /-- Keys are escaped, too. -/
  | object (members : List (List UInt8 × Value))
deriving Inhabited

def ascii (s : String) : List UInt8 := s.toList.map fun c => c.toNat.toUInt8

def quoteByte : UInt8 := 34
def backslashByte : UInt8 := 92
def comma : UInt8 := 44
def colon : UInt8 := 58
def openBracket : UInt8 := 91
def closeBracket : UInt8 := 93
def openBrace : UInt8 := 123
def closeBrace : UInt8 := 125

def quoted (escaped : List UInt8) : List UInt8 := quoteByte :: escaped ++ [quoteByte]

namespace Value

mutual
/-- The text of a value without blanks, in front of `rest`. -/
def compactOnto : Value → List UInt8 → List UInt8
  | .null, rest => ascii "null" ++ rest
  | .bool b, rest => ascii (if b then "true" else "false") ++ rest
  | .number written, rest => written ++ rest
  | .string escaped, rest => quoted escaped ++ rest
  | .array items, rest => openBracket :: compactItems items (closeBracket :: rest)
  | .object members, rest => openBrace :: compactMembers members (closeBrace :: rest)

def compactItems : List Value → List UInt8 → List UInt8
  | [], rest => rest
  | v :: [], rest => compactOnto v rest
  | v :: w :: more, rest => compactOnto v (comma :: compactItems (w :: more) rest)

def compactMembers : List (List UInt8 × Value) → List UInt8 → List UInt8
  | [], rest => rest
  | (key, v) :: [], rest => quoted key ++ colon :: compactOnto v rest
  | (key, v) :: m :: more, rest =>
    quoted key ++ colon :: compactOnto v (comma :: compactMembers (m :: more) rest)
end

def compact (v : Value) : List UInt8 := compactOnto v []

/-- A new line with an indentation of two blanks per level. -/
def newLine (level : Nat) : List UInt8 := 10 :: List.replicate (2 * level) 32

mutual
/-- The text of a value with every part of a container on a line of its own, in front of `rest`. -/
def indentedOnto (level : Nat) : Value → List UInt8 → List UInt8
  | .array (v :: more), rest =>
    openBracket :: newLine (level + 1) ++
      indentedItems (level + 1) (v :: more) (newLine level ++ closeBracket :: rest)
  | .object (m :: more), rest =>
    openBrace :: newLine (level + 1) ++
      indentedMembers (level + 1) (m :: more) (newLine level ++ closeBrace :: rest)
  | v, rest => compactOnto v rest

def indentedItems (level : Nat) : List Value → List UInt8 → List UInt8
  | [], rest => rest
  | v :: [], rest => indentedOnto level v rest
  | v :: w :: more, rest =>
    indentedOnto level v (comma :: newLine level ++ indentedItems level (w :: more) rest)

def indentedMembers (level : Nat) : List (List UInt8 × Value) → List UInt8 → List UInt8
  | [], rest => rest
  | (key, v) :: [], rest => quoted key ++ colon :: 32 :: indentedOnto level v rest
  | (key, v) :: m :: more, rest =>
    quoted key ++ colon :: 32 ::
      indentedOnto level v (comma :: newLine level ++ indentedMembers level (m :: more) rest)
end

def indented (v : Value) : List UInt8 := indentedOnto 0 v []

end Value
end Reparse.Json
