import Reparse.Language.Basic
import Reparse.Tree.Cursor
import Reparse.Tree.Walk

/-! # Parsed texts -/
namespace Reparse
open Text

/-- What a parse counted. -/
structure ParseStats where
  /-- Tokens of the text, extras included. -/
  tokens : Nat := 0
  /-- Tokens that the lexer read. -/
  relexedTokens : Nat := 0
  /-- Tokens taken over from the previous tree. -/
  reusedTokens : Nat := 0
  /-- Subtrees taken over from the previous tree. -/
  reusedNodes : Nat := 0
  errors : Nat := 0
deriving DecidableEq, Inhabited

/-- A text with its tree. The leaves in order spell the text. -/
structure SyntaxTree where
  root : Tree
  source : Bytes
  language : Language
  /-- The number of the parser family that made it; only that family may reuse its parts. -/
  family : Nat := 0
  stats : ParseStats := {}
deriving Inhabited

namespace SyntaxTree

/-- Trees are equal if their roots are. -/
instance : BEq SyntaxTree := ⟨fun a b => a.root == b.root⟩

def length (t : SyntaxTree) : Nat := t.root.length
def isEmpty (t : SyntaxTree) : Bool := t.source.isEmpty
def hasErrors (t : SyntaxTree) : Bool := t.root.hasError

/-- The bytes of a range, or none of them if it leaves the text. -/
def slice (t : SyntaxTree) (r : Range) : Bytes := (r.slice? t.source).getD #[]

/-- The leaves with their offsets, in source order. -/
def leaves (t : SyntaxTree) : Array (Nat × Leaf) :=
  (t.root.leaves.foldl (fun (offset, found) l => (plus offset l.length, found.push (offset, l)))
    (0, #[])).2

end SyntaxTree
end Reparse
