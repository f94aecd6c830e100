import Reparse.Json.Record
import Reparse.Language.Basic

/-! # Languages as JSON artifacts -/
namespace Reparse
open Json (Value ofMembers ofNat ofInt ofBool ofOption ofArray ofPair record? required optional
  nat? int32? bool? string? array? pair? option?)

namespace Artifact

inductive Error where
  | malformed
  | unsupportedVersion (found expected : Nat)
deriving DecidableEq

def Error.message : Error → String
  | .malformed => "malformed language artifact"
  | .unsupportedVersion found expected =>
    s!"unsupported artifact format version {found} (expected {expected})"

def max8 : Nat := 255
def max16 : Nat := 65535
def max32 : Nat := 4294967295
def max64 : Nat := 18446744073709551615

def ofKind (k : Kind) : Value := ofNat k.id
def kind? (v : Value) : Option Kind := (nat? max16 v).map Kind.mk
def ofField (f : Field) : Value := ofNat f.id
def field? (v : Value) : Option Field := (nat? max16 v).map Field.mk
def ofString (s : String) : Value := Json.ofString s
def byte? (v : Value) : Option UInt8 := (nat? max8 v).map Nat.toUInt8

def ofMetadata (m : Metadata) : Value :=
  ofMembers [("format_version", ofNat m.formatVersion), ("name", ofString m.name),
    ("version", ofString m.version)]

def metadata? (v : Value) : Option Metadata := do
  match ← record? ["format_version", "name", "version"] v with
  | [format, name, version] =>
    return ⟨← required (nat? max32) format, ← required string? name, ← required string? version⟩
  | _ => none

def ofSymbol (s : SymbolInfo) : Value :=
  ofMembers [("name", ofString s.name), ("terminal", ofBool s.terminal),
    ("visible", ofBool s.visible), ("named", ofBool s.named)]

def symbol? (v : Value) : Option SymbolInfo := do
  match ← record? ["name", "terminal", "visible", "named"] v with
  | [name, terminal, visible, named] =>
    return ⟨← required string? name, ← required bool? terminal, ← required bool? visible,
      ← required bool? named⟩
  | _ => none

def ofTransition (t : Lexer.Transition) : Value :=
  ofMembers [("lo", ofNat t.lo.toNat), ("hi", ofNat t.hi.toNat), ("target", ofNat t.target)]

def transition? (v : Value) : Option Lexer.Transition := do
  match ← record? ["lo", "hi", "target"] v with
  | [lo, hi, target] =>
    return ⟨← required byte? lo, ← required byte? hi, ← required (nat? max32) target⟩
  | _ => none

def ofDfaState (s : Lexer.DfaState) : Value :=
  ofMembers [("transitions", ofArray ofTransition s.transitions),
    ("accept", ofOption ofNat s.accept)]

def dfaState? (v : Value) : Option Lexer.DfaState := do
  match ← record? ["transitions", "accept"] v with
  | [transitions, accept] =>
    return ⟨← required (array? transition?) transitions, ← optional (nat? max32) accept⟩
  | _ => none

def ofDfa (d : Lexer.Dfa) : Value := ofMembers [("states", ofArray ofDfaState d.states)]

def dfa? (v : Value) : Option Lexer.Dfa := do match ← record? ["states"] v with
  | [states] => return ⟨← required (array? dfaState?) states⟩
  | _ => none

def ofMode (m : Lexer.Mode) : Value := ofMembers [("name", ofString m.name), ("dfa", ofDfa m.dfa)]

def mode? (v : Value) : Option Lexer.Mode := do match ← record? ["name", "dfa"] v with
  | [name, dfa] => return ⟨← required string? name, ← required dfa? dfa⟩
  | _ => none

def ofOutcome (r : Lexer.Outcome) : Value :=
  ofMembers [("kind", ofKind r.kind), ("mode", ofNat r.mode),
    ("next_mode", ofOption ofNat r.nextMode)]

def outcome? (v : Value) : Option Lexer.Outcome := do
  match ← record? ["kind", "mode", "next_mode"] v with
  | [kind, mode, next] =>
    return ⟨← required kind? kind, ← required (nat? max16) mode, ← optional (nat? max16) next⟩
  | _ => none

def ofLexer (l : Lexer) : Value :=
  ofMembers [("modes", ofArray ofMode l.modes), ("rules", ofArray ofOutcome l.rules),
    ("word", ofOption ofDfa l.word)]

def lexer? (v : Value) : Option Lexer := do match ← record? ["modes", "rules", "word"] v with
  | [modes, rules, word] =>
    return ⟨← required (array? mode?) modes, ← required (array? outcome?) rules,
      ← optional dfa? word⟩
  | _ => none

def ofAction : Table.Action → Value
  | .shift state => ofMembers [("Shift", ofNat state)]
  | .reduce production => ofMembers [("Reduce", ofNat production)]
  | .accept => ofString "Accept"

def action? : Value → Option Table.Action
  | .string name => if Json.unescape? name = some "Accept" then some .accept else none
  | .object [(key, v)] => do match ← Json.unescape? key with
    | "Shift" => (nat? max32 v).map .shift
    | "Reduce" => (nat? max32 v).map .reduce
    | "Accept" => match v with
      | .null => some .accept
      | _ => none
    | _ => none
  | _ => none

def ofProduction (p : Table.ProductionInfo) : Value :=
  ofMembers [("lhs", ofKind p.lhs), ("fields", ofArray (ofOption ofField) p.fields),
    ("dynamic_precedence", ofInt p.dynamic)]

def production? (v : Value) : Option Table.ProductionInfo := do
  match ← record? ["lhs", "fields", "dynamic_precedence"] v with
  | [lhs, fields, dynamic] =>
    return ⟨← required kind? lhs, ← required (array? (option? field?)) fields,
      ← required int32? dynamic⟩
  | _ => none

def ofTable (t : Table) : Value :=
  ofMembers [("actions", ofArray (ofArray (ofPair ofKind ofAction)) t.actions),
    ("gotos", ofArray (ofArray (ofPair ofKind ofNat)) t.gotos),
    ("productions", ofArray ofProduction t.productions)]

def table? (v : Value) : Option Table := do
  match ← record? ["actions", "gotos", "productions"] v with
  | [actions, gotos, productions] =>
    return ⟨← required (array? (array? (pair? kind? action?))) actions,
      ← required (array? (array? (pair? kind? (nat? max32)))) gotos,
      ← required (array? production?) productions⟩
  | _ => none

def ofLanguage (l : Language) : Value :=
  ofMembers [("metadata", ofMetadata l.metadata), ("symbols", ofArray ofSymbol l.symbols),
    ("terminal_count", ofNat l.terminalCount), ("fields", ofArray ofString l.fields),
    ("lexer", ofLexer l.lexer), ("table", ofTable l.table), ("extras", ofArray ofKind l.extras),
    ("word", ofOption ofKind l.word), ("start", ofKind l.start)]

def language? (v : Value) : Option Language := do
  match ← record? ["metadata", "symbols", "terminal_count", "fields", "lexer", "table", "extras",
      "word", "start"] v with
  | [metadata, symbols, terminals, fields, lexer, table, extras, word, start] =>
    return {
      metadata := ← required metadata? metadata
      symbols := ← required (array? symbol?) symbols
      terminalCount := ← required (nat? max64) terminals
      fields := ← required (array? string?) fields
      lexer := ← required lexer? lexer
      table := ← required table? table
      extras := ← required (array? kind?) extras
      word := ← optional kind? word
      start := ← required kind? start }
  | _ => none

/-- The metadata alone, whatever the rest of the document holds. -/
def header? (v : Value) : Option Metadata := do match ← record? ["metadata"] v with
  | [metadata] => required metadata? metadata
  | _ => none

/-- The artifact of a language. -/
def write (l : Language) : List UInt8 := (ofLanguage l).compact

/-- The language of an artifact. The version is checked before the body is looked at. -/
def read (bytes : List UInt8) : Except Error Language :=
  match Json.parse? bytes with
  | none => .error .malformed
  | some document =>
    match header? document with
    | none => .error .malformed
    | some metadata =>
      if metadata.formatVersion ≠ formatVersion then
        .error (.unsupportedVersion metadata.formatVersion formatVersion)
      else match language? document with
        | none => .error .malformed
        | some l => .ok l

end Artifact
end Reparse
