import Reparse.Grammar.Basic

/-! # Flat grammars: numbered symbols and productions without nesting -/
namespace Reparse

/-- Name and visibility of a symbol. -/
structure SymbolInfo where
  name : String
  terminal : Bool
  /-- Hidden rules are spliced into their parents; hidden tokens are not written in
  S-expressions. -/
  visible : Bool
  /-- Declared by name, and not a literal. -/
  named : Bool
deriving DecidableEq, Inhabited

namespace Grammar
open Lexer (Pattern)

/-- One symbol of a right-hand side. -/
structure Step where
  symbol : Kind
  field : Option Field := none
  precedence : Precedence := {}
deriving DecidableEq, Hashable, Inhabited

structure Production where
  lhs : Kind
  steps : List Step
  precedence : Precedence := {}
  dynamic : Int := 0
deriving DecidableEq, Inhabited

/-- A rule of the lexer for one terminal. -/
structure LexicalToken where
  kind : Kind
  pattern : Pattern
  priority : Int := 0
  mode : Nat := 0
  nextMode : Option Nat := none

/-- A grammar in the form from which tables are built. Production 0 derives the start symbol from a
rule of its own, and is accepted instead of reduced. -/
structure Flat where
  name : String
  version : String
  symbols : Array SymbolInfo
  terminalCount : Nat
  productions : Array Production
  /-- The productions of each symbol. -/
  byLhs : Array (Array Nat)
  start : Kind
  fields : Array String
  extras : Array Kind
  word : Option Kind
  wordPattern : Option Pattern
  conflictGroups : List (List Kind)
  declaredRules : List Kind
  lexical : List LexicalToken
  modes : List String

namespace Flat

def isTerminal (g : Flat) (k : Kind) : Bool := k.id < g.terminalCount
def nameOf (g : Flat) (k : Kind) : String := (g.symbols[k.id]?.map (·.name)).getD "?"
def productionsOf (g : Flat) (k : Kind) : Array Nat := g.byLhs[k.id]?.getD #[]

/-- The steps of a production, from a place in it. -/
def stepsFrom (g : Flat) (production dot : Nat) : List Step :=
  (g.productions[production]?.map (·.steps.drop dot)).getD []

/-- Whether some group of expected conflicts holds both rules. -/
def conflictExpected (g : Flat) (a b : Kind) : Bool :=
  g.conflictGroups.any fun group => group.contains a && group.contains b

def displaySymbol (g : Flat) (k : Kind) : String := match g.symbols[k.id]? with
  | some info => if info.terminal && !info.named then s!"'{info.name}'" else info.name
  | none => "?"

/-- An item as text, such as `a → b • c`. -/
def renderItem (g : Flat) (production dot : Nat) : String := match g.productions[production]? with
  | none => ""
  | some p =>
    let names := p.steps.map fun s => g.displaySymbol s.symbol
    " ".intercalate ([g.nameOf p.lhs, "→"] ++ names.take dot ++ ["•"] ++ names.drop dot)

end Flat
end Grammar
end Reparse
