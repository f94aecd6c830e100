import Reparse.SyntaxTree.Basic
import Reparse.Text.Lossy

/-! # Syntax errors recorded in trees -/
namespace Reparse
open Text Data

inductive SyntaxError.Cause where
  /-- A byte that no token starts with. -/
  | unrecognized (text : String)
  /-- A token that the grammar does not allow here. -/
  | unexpected (found : String) (expected : List String)
  /-- The text ended too early. -/
  | unexpectedEnd (expected : List String)
deriving DecidableEq

structure SyntaxError where
  range : Range
  cause : SyntaxError.Cause
deriving DecidableEq

namespace SyntaxError

def backquoted (s : String) : String := "`" ++ s ++ "`"

/-- Messages list this many expected terminals and count the others. -/
def shownExpected : Nat := 8

def expectedText (expected : List String) : String :=
  if expected.isEmpty then ""
  else
    let shown := ", expected " ++ ", ".intercalate ((expected.take shownExpected).map backquoted)
    if expected.length > shownExpected then
      s!"{shown} or {expected.length - shownExpected} more"
    else shown

def Cause.message : Cause → String
  | .unrecognized text => s!"unrecognized input {backquoted text}"
  | .unexpected found expected => s!"unexpected {backquoted found}{expectedText expected}"
  | .unexpectedEnd expected => s!"unexpected end of input{expectedText expected}"

def message (e : SyntaxError) : String := e.cause.message

end SyntaxError

namespace SyntaxTree

def displayKind (l : Language) (k : Kind) : String :=
  if k = .eof then "end of input" else l.kindName k

/-- Terminals with an action in a state, by name. -/
def expectedNames (l : Language) (state : Nat) : List String :=
  ((l.table.expected state).filter (· ≠ .error)).toList.map (displayKind l)

/-- The leaves of a tree that are not extras. -/
def significantLeaves (l : Language) (t : Tree) : Array Leaf :=
  t.leaves.filter fun leaf => !l.isExtra leaf.kind

/-- Error nodes of unrecognized bytes alone are covered by the reports on those bytes. -/
def isReportable (leaves : Array Leaf) : Bool := leaves.isEmpty || leaves.any (!·.isError)

/-- The report on an error node: its first proper token, or else the first token after it, is
unexpected. -/
def nodeError (t : SyntaxTree) (significant : Array (Nat × Leaf)) (range : Range) (state : Nat)
    (leaves : Array Leaf) : SyntaxError :=
  let expected := expectedNames t.language state
  let found := match leaves.find? (!·.isError) with
    | some leaf => some leaf.kind
    | none =>
      let i := partitionPoint significant.size fun i =>
        (significant[i]?.map (·.1)).any (· < range.stop)
      significant[i]?.map (·.2.kind)
  ⟨range, match found with
    | some k => .unexpected (displayKind t.language k) expected
    | none => .unexpectedEnd expected⟩

/-- Collects the errors of one event of a walk; the offset moves with the leaves. -/
def errorVisit (t : SyntaxTree) (significant : Array (Nat × Leaf)) (acc : Nat × Array SyntaxError) :
    Tree.Visit → Nat × Array SyntaxError
  | .enter _ (.node info children) =>
    if info.isError then
      let leaves := significantLeaves t.language (.node info children)
      if isReportable leaves then
        (acc.1,
          acc.2.push (t.nodeError significant ⟨acc.1, plus acc.1 info.length⟩ info.state leaves))
      else acc
    else acc
  | .enter _ (.leaf leaf) =>
    let stop := plus acc.1 leaf.length
    if leaf.isError then
      let range : Range := ⟨acc.1, stop⟩
      (stop, acc.2.push ⟨range, .unrecognized (lossy (t.slice range))⟩)
    else (stop, acc.2)
  | .leave _ => acc

/-- Errors in source order: each unrecognized byte, and each error node with what was expected
there. -/
def errors (t : SyntaxTree) : Array SyntaxError :=
  if t.hasErrors then
    let significant := t.leaves.filter fun leaf => !t.language.isExtra leaf.2.kind
    (t.root.walk (t.errorVisit significant) (0, #[])).2
  else #[]

end SyntaxTree
end Reparse
