import Reparse.Parse.Run

/-! # Parsing, from scratch or from a previous tree -/
namespace Reparse
open Text Parse

structure Parser where
  language : Language
  /-- Trees of other families are not reused, whatever their language. -/
  family : Nat := 0
  config : Config := {}

namespace Parser

/-- The tree of `source`. The edits say how the source of the previous tree became `source`; parts
of that tree that they leave alone are taken over. -/
def parse (p : Parser) (source : Bytes) (previous : Option SyntaxTree := none)
    (edits : List Edit := []) : SyntaxTree :=
  let previous := previous.filter (·.family == p.family)
  let old := (previous.map (OldLeaf.ofTree · edits)).getD #[]
  let oldSource := (previous.map (·.source)).getD #[]
  let stream := TokenStream.relex p.language.lexer source oldSource old
  let reuse := (previous.filter fun _ => p.config.reuseNodes).map fun t =>
    Reuse.ofTree p.language t.root stream.tokens
  let outcome := Job.run ⟨p.language, p.config, stream.tokens, reuse⟩ {}
  { root := outcome.root
    source
    language := p.language
    family := p.family
    stats :=
      ⟨stream.tokens.size, stream.relexed, stream.reused, outcome.reusedNodes, outcome.errors⟩ }

/-- The trees of some texts, in order. -/
def parseAll (p : Parser) (sources : List Bytes) : List SyntaxTree := sources.map (p.parse ·)

end Parser
end Reparse
