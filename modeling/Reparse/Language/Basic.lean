import Reparse.Grammar.Production
import Reparse.Table.Basic

/-! # Compiled languages -/
namespace Reparse
open Grammar

/-- The layout version of artifacts. -/
def formatVersion : Nat := 1

structure Metadata where
  formatVersion : Nat
  name : String
  version : String
deriving DecidableEq, Inhabited

/-- A compiled grammar: everything that a parse needs. -/
structure Language where
  metadata : Metadata
  symbols : Array SymbolInfo
  terminalCount : Nat
  fields : Array String
  lexer : Lexer
  table : Table
  extras : Array Kind
  word : Option Kind
  start : Kind
deriving DecidableEq, Inhabited

namespace Language

def symbol? (l : Language) (k : Kind) : Option SymbolInfo := l.symbols[k.id]?
def kindName (l : Language) (k : Kind) : String := ((l.symbol? k).map (·.name)).getD "?"

/-- The first symbol of a name, where those declared by name come before literals. -/
def kindForName? (l : Language) (name : String) : Option Kind :=
  ((l.symbols.findIdx? fun s => s.name == name && s.named) <|>
    (l.symbols.findIdx? fun s => s.name == name)).map Kind.ofNat

def fieldName? (l : Language) (f : Field) : Option String := l.fields[f.id]?
def fieldId? (l : Language) (name : String) : Option Field :=
  ((l.fields.findIdx? (· == name)).filter (· ≤ maxId)).map fun i => ⟨i⟩

def isExtra (l : Language) (k : Kind) : Bool := l.extras.contains k
def isTerminal (l : Language) (k : Kind) : Bool := k.id < l.terminalCount
def isVisible (l : Language) (k : Kind) : Bool := (l.symbol? k).any (·.visible)
def isNamed (l : Language) (k : Kind) : Bool := (l.symbol? k).any (·.named)

end Language
end Reparse
