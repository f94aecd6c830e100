import Reparse.Grammar.Lowering
import Reparse.Language.Basic
import Reparse.Table.Build

/-! # Compilation of grammars -/
namespace Reparse

/-- A language, with the declared rules that its start rule does not reach. -/
structure Compiled where
  language : Language
  unreachable : List String

namespace Grammar

def Flat.lexerSpec (g : Flat) : Lexer.Spec :=
  let spec : Lexer.Spec := g.modes.foldl (fun spec name => (spec.declareMode name).2) {}
  { spec with
    rules := (g.lexical.map fun t =>
      { kind := t.kind, pattern := t.pattern, priority := t.priority, mode := t.mode,
        nextMode := t.nextMode : Lexer.Rule }).toArray
    word := g.wordPattern }

/-- Flattens the rules, builds the lexer and then the table; the first of these that fails is
reported. -/
def compile (g : Grammar) (mode : Table.Mode) : Except Error Compiled := do
  let flat ← flatten g
  let lexer ← flat.lexerSpec.build.mapError .lexer
  let table ← Table.build flat mode
  return {
    language := {
      metadata := ⟨formatVersion, flat.name, flat.version⟩
      symbols := flat.symbols
      terminalCount := flat.terminalCount
      fields := flat.fields
      lexer, table
      extras := flat.extras
      word := flat.word
      start := flat.start }
    unreachable := Table.unreachableRules flat }

def unreachableMessage (rule : String) : String :=
  s!"rule {quote rule} is unreachable from the start rule"

end Grammar
end Reparse
