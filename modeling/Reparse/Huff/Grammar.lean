import Reparse.Huff.Opcodes
import Reparse.Language.Compile

/-! # The grammar of Huff, an assembly language for the Ethereum virtual machine -/
namespace Reparse.Huff
open Lexer Grammar

def blockCommentMode : String := "block_comment"

def singleQuote : UInt8 := 39
def doubleQuote : UInt8 := 34
def backslash : UInt8 := 92
def lineFeed : UInt8 := 10
def star : UInt8 := 42

/-- Digits of a set with single underscores between them. -/
def moreDigits (set : ByteSet) : Pattern := .star (.seq [.optional (.literal "_"), .oneOf set])

def decimal : Pattern := .seq [.oneOf .digits, moreDigits .digits]
def hexadecimal : Pattern :=
  .seq [.literal "0", .oneOf (.ofString "xX"), .oneOf .hexDigits, moreDigits .hexDigits]

/-- A text on one line between quotes, where a backslash escapes the byte after it. -/
def quoted (quote : UInt8) : Pattern :=
  let plain :=
    (ByteSet.ofRanges [(quote, quote), (backslash, backslash), (lineFeed, lineFeed)]).complement
  let escape := Pattern.seq [.literal "\\", .oneOf .notLineFeed]
  .seq [.oneOf (.single quote), .star (.alt [.oneOf plain, escape]), .oneOf (.single quote)]

/-- The text of a block comment up to the stars and slash that end it. -/
def commentBody : Pattern :=
  .plus (.alt [.oneOf (ByteSet.single star).complement,
    .seq [.plus (.literal "*"), .oneOf (ByteSet.ofString "*/").complement]])

def commentEnd : Pattern := .seq [.plus (.literal "*"), .literal "/"]

def identifierHead : ByteSet := ByteSet.letters.union (.ofString "_")
def identifierTail : ByteSet := ByteSet.lettersAndDigits.union (.ofString "_")

def tokens : List TokenDecl := [
  { name := "identifier", pattern := .seq [.oneOf identifierHead, .star (.oneOf identifierTail)] },
  { name := "number", pattern := .alt [decimal, hexadecimal] },
  { name := "string_literal", pattern := .alt [quoted doubleQuote, quoted singleQuote] },
  { name := "natspec_line", pattern := .seq [.literal "///", .star (.oneOf .notLineFeed)],
    priority := 1 },
  { name := "natspec_block", pattern := .seq [.literal "/**", .optional commentBody, commentEnd] },
  { name := "_comment_line", pattern := .seq [.literal "//", .star (.oneOf .notLineFeed)] },
  { TokenDecl.literal "/*" with enter := some blockCommentMode },
  { name := "_comment_text", pattern := commentBody, mode := some blockCommentMode },
  { name := "_comment_end", pattern := commentEnd, mode := some blockCommentMode,
    enter := some defaultMode },
  { name := "_whitespace", pattern := .plus (.oneOf .blanks) }]

/-- A type name with one of the given sizes at its end. -/
def sizedType (name : String) (sizes : List Nat) : Expr :=
  .pattern (.seq [.literal name, .words (sizes.map toString)])

/-- The multiples of eight up to 256. -/
def bitSizes : List Nat := (List.range 32).map fun i => 8 * (i + 1)
def byteSizes : List Nat := (List.range 32).map (· + 1)

/-- Parentheses around `items`, which may be absent. -/
def parenthesized (items : Expr) : Expr := .seq [.text "(", .optional items, .text ")"]
def commaSeparated (item : Expr) : Expr := .sepBy1 item (.text ",")
def anyOf (names : List String) : Expr := .choice (names.map .symbol)
def identifier : Expr := .symbol "identifier"
def nameField : Expr := .field "name" identifier
def openBrace : Expr := .text "\x7b"
def closeBrace : Expr := .text "\x7d"

def definitions : List (String × Expr) := [
  ("source_file", .repeated (.symbol "_definition")),
  ("_definition", anyOf ["comment", "declaration", "decorator", "import", "natspec"]),
  ("natspec", anyOf ["natspec_block", "natspec_line"]),
  ("comment", anyOf ["_comment_line", "_comment_block"]),
  ("_comment_block",
    .seq [.text "/*", .optional (.symbol "_comment_text"), .symbol "_comment_end"]),
  ("decorator", .seq [.text "#[", commaSeparated (.symbol "decorator_item"), .text "]"]),
  ("decorator_item", .seq [nameField,
    .optional (.seq [.text "(",
      .field "args" (commaSeparated (anyOf ["string_literal", "number", "identifier"])),
      .text ")"])]),
  ("import",
    .seq [.field "include_keyword" (.text "#include"), .field "path" (.symbol "string_literal")])]

/-- Parameters of a macro, by name only. -/
def macroParameters : Expr := parenthesized (.field "parameters" (commaSeparated identifier))

def macroLike (keyword : String) : Expr :=
  .seq [.text keyword, nameField, macroParameters, .text "=",
    .field "takes_keyword" (.text "takes"), .text "(", .field "takes_count" (.symbol "number"),
    .text ")", .optional (.seq [.field "returns_keyword" (.text "returns"), .text "(",
      .field "returns_count" (.symbol "number"), .text ")"]),
    .field "body" (.symbol "macro_body")]

def signature (keyword : String) : Expr :=
  .seq [.text keyword, nameField, .field "parameters" (.symbol "parameter_list")]

def jumptable (keyword : String) : Expr :=
  .seq [.text keyword, nameField, .field "body" (.symbol "jumptable_body")]

def declarations : List (String × Expr) := [
  ("declaration", .seq [.field "define_keyword" (.text "#define"),
    anyOf ["constant", "error", "event", "fn", "function", "jumptable", "jumptable_packed", "macro",
      "table", "test"]]),
  ("constant", .seq [.text "constant", nameField, .text "=",
    .field "value" (anyOf ["number", "builtin_function"])]),
  ("error", signature "error"),
  ("event", signature "event"),
  ("macro", macroLike "macro"),
  ("fn", macroLike "fn"),
  ("function", .seq [.text "function", nameField, .field "parameters" (.symbol "parameter_list"),
    .symbol "visibility", .text "returns", .field "parameters" (.symbol "parameter_list")]),
  ("jumptable", jumptable "jumptable"),
  ("jumptable_packed", jumptable "jumptable__packed"),
  ("jumptable_body", .seq [openBrace, .repeated (.symbol "jumpdest"), closeBrace]),
  ("table", .seq [.text "table", nameField, .field "body" (.symbol "macro_body")]),
  ("test", .seq [.text "test", nameField, .optional macroParameters, .text "=",
    .field "body" (.symbol "macro_body")]),
  ("parameter_list", parenthesized (commaSeparated (.symbol "parameter"))),
  ("parameter", .seq [.symbol "type", .optional (.symbol "location"), .optional nameField]),
  ("type", .seq [
    .choice [.keywords ["address", "bool", "bytes", "int", "string", "uint"],
      sizedType "uint" bitSizes, sizedType "int" bitSizes, sizedType "bytes" byteSizes],
    .repeated (.seq [.text "[", .optional (.field "array_size" (.symbol "number")), .text "]"])]),
  ("visibility", .field "visibility" (.keywords ["pure", "view", "nonpayable", "payable"])),
  ("location", .field "location" (.keywords ["calldata", "indexed", "memory", "storage"]))]

def builtinCall (name : String) (argument : Expr) : Expr :=
  .seq [.text name, .text "(", .field "args" argument, .text ")"]

def nameOrString : Expr := anyOf ["identifier", "string_literal"]

def macroBodies : List (String × Expr) := [
  ("macro_body", .seq [openBrace, .repeated (.symbol "_macro_body_item"), closeBrace]),
  ("_macro_body_item",
    anyOf ["builtin_function", "comment", "jumpdest", "jumpdest_label", "macro_call", "natspec",
      "number", "opcode", "referenced_constant", "referenced_parameter"]),
  ("opcode", .field "opcode" (.keywords opcodes)),
  ("macro_call", .seq [nameField,
    parenthesized (.field "args" (commaSeparated (anyOf ["number", "identifier"])))]),
  ("referenced_parameter", .seq [.text "<", nameField, .text ">"]),
  ("referenced_constant", .seq [.text "[", nameField, .text "]"]),
  ("jumpdest", nameField),
  ("jumpdest_label", .seq [nameField, .text ":"]),
  ("builtin_function", .choice [
    builtinCall "__codesize" identifier,
    builtinCall "__tablestart" identifier,
    builtinCall "__tablesize" identifier,
    builtinCall "__ERROR" nameOrString,
    builtinCall "__EVENT_HASH" nameOrString,
    builtinCall "__FUNC_SIG" nameOrString,
    builtinCall "__RIGHTPAD" (.symbol "number"),
    .text "FREE_STORAGE_POINTER()"])]

def draft : Draft where
  name := "huff"
  version := "0.3.0"
  tokens := tokens
  rules := definitions ++ declarations ++ macroBodies
  extras := ["_whitespace"]
  word := some "identifier"
  start := some "source_file"
  modes := [defaultMode, blockCommentMode]

/-- The compiled language. -/
def compile (mode : Table.Mode) : Except Grammar.Error Compiled := do
  (← draft.validate).compile mode

end Reparse.Huff
