import Reparse.Language.Basic
import Reparse.Tree.Basic

/-! # What to do at the next token -/
namespace Reparse.Language

/-- The kind as which the next token is read in a state, with the action; no token means the end of
input. A token that could stand in for a word does so where its own kind has no action. -/
def actionFor (l : Language) (state : Nat) : Option Leaf → Kind × Option Table.Action
  | none => (.eof, l.table.action? state .eof)
  | some leaf =>
    match l.table.action? state leaf.kind with
    | some a => (leaf.kind, some a)
    | none =>
      match (if leaf.flags.word then l.word else none) with
      | none => (leaf.kind, none)
      | some word => match l.table.action? state word with
        | some a => (word, some a)
        | none => (leaf.kind, none)

def hasAction (l : Language) (state : Nat) (next : Option Leaf) : Bool :=
  (l.actionFor state next).2.isSome

/-- Leaves that the parser steps over. -/
def isTrivia (l : Language) : Tree → Bool
  | .leaf leaf => l.isExtra leaf.kind
  | .node .. => false

end Reparse.Language
