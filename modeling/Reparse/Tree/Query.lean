import Reparse.Tree.Cursor

/-! # Queries for nodes -/
namespace Reparse.Tree

inductive Predicate where
  | kind (k : Kind)
  /-- The parent names the node with the field. -/
  | field (f : Field)
  | custom (test : Cursor → Bool)

/-- Nodes that satisfy all predicates, at most as many as the limit says. -/
structure Query where
  predicates : List Predicate := []
  limit : Option Nat := none

namespace Predicate

def holds (c : Cursor) : Predicate → Bool
  | .kind k => c.tree.kind == k
  | .field f => c.field? == some f
  | .custom test => test c

def debugText : Predicate → String
  | .kind k => s!"Kind({k.debugText})"
  | .field f => s!"Field({f.debugText})"
  | .custom _ => "Custom(..)"

end Predicate

namespace Query

def ofKind (k : Kind) : Query := { predicates := [.kind k] }

def addPredicate (q : Query) (p : Predicate) : Query := { q with predicates := q.predicates ++ [p] }

def matchesAt (q : Query) (c : Cursor) : Bool := q.predicates.all (·.holds c)

/-- Matching nodes from the place down, in preorder. -/
def findAll (q : Query) (c : Cursor) : Array Cursor :=
  let found := c.descendants.filter q.matchesAt
  match q.limit with
  | some n => found.extract 0 n
  | none => found

/-- The first matching node, whatever the limit. -/
def findFirst? (q : Query) (c : Cursor) : Option Cursor := c.descendants.find? q.matchesAt

def debugText (q : Query) : String :=
  let limit := match q.limit with
    | some n => s!"Some({n})"
    | none => "None"
  "Query \x7b predicates: [" ++ ", ".intercalate (q.predicates.map Predicate.debugText) ++
    "], max_results: " ++ limit ++ " \x7d"

end Query
end Reparse.Tree
