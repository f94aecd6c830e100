import Reparse.Table.First

/-! # Items with lookaheads, and their closure -/
namespace Reparse.Table
open Data Grammar

/-- A production with a place in its right-hand side. -/
structure Item where
  production : Nat
  dot : Nat
deriving DecidableEq, Hashable, Inhabited

def Item.le (a b : Item) : Bool :=
  a.production < b.production || (a.production == b.production && a.dot ≤ b.dot)
def Item.advance (i : Item) : Item := { i with dot := i.dot + 1 }

/-- Items in increasing order, each with the terminals that may follow its production. -/
abbrev Items := List (Item × BitSet)

/-- Joins neighbours with equal keys. -/
def groupRuns {α : Type} (pairs : List (Kind × α)) : List (Kind × List α) :=
  pairs.foldr (fun (k, a) groups => match groups with
    | (k', as) :: rest => if k = k' then (k, a :: as) :: rest else (k, [a]) :: groups
    | [] => [(k, [a])]) []

/-- The values of each key, in increasing order of keys. -/
def groupByKind {α : Type} (pairs : List (Kind × α)) : List (Kind × List α) :=
  groupRuns (pairs.mergeSort fun a b => a.1.id ≤ b.1.id)

namespace Items

/-- Lookaheads of the items at the start of each production, so far; and items whose consequences
have not been drawn, with their lookahead. -/
abbrev Predictions := Array (Option BitSet) × Items

/-- Predicts production `q` with lookahead `ahead`; if that is news, its consequences are drawn
again. -/
def predict (ahead : BitSet) (p : Predictions) (q : Nat) : Predictions :=
  match (p.1[q]?).join with
  | none => (p.1.setIfInBounds q (some ahead), (⟨q, 0⟩, ahead) :: p.2)
  | some old =>
    let merged := old.union ahead
    if merged = old then p else (p.1.setIfInBounds q (some merged), (⟨q, 0⟩, merged) :: p.2)

/-- Predicts the productions of the symbol after the dot. -/
def expand (g : Flat) (f : First) (entry : Item × BitSet) (p : Predictions) : Predictions :=
  match g.stepsFrom entry.1.production entry.1.dot with
  | [] => p
  | s :: rest =>
    if g.isTerminal s.symbol then p
    else
      let (first, nullable) := f.ofSteps rest
      let ahead := if nullable then first.union entry.2 else first
      (g.productionsOf s.symbol).foldl (predict ahead) p

/-- Draws consequences until none are left; the lookahead of a production grows at most once per
terminal, so `fuel` steps are enough. The work list is taken from the front, and an entry keeps the
lookahead it was added with. The order does not matter, and neither does it whether the lookahead is
looked up when an entry is taken, as it is when the list holds items only and is taken from the
back: an entry whose lookahead has grown is followed by one with the larger set, and what is found
in the end is the least collection that `expand` adds nothing to. -/
def expandAll (g : Flat) (f : First) : (fuel : Nat) → Predictions → Array (Option BitSet)
  | 0, p => p.1
  | fuel + 1, (found, work) => match work with
    | [] => found
    | entry :: work => expandAll g f fuel (expand g f entry (found, work))

/-- The items at the start of productions that have a lookahead set. -/
def ofPredictions (found : Array (Option BitSet)) : Items :=
  found.toList.zipIdx.filterMap fun (ahead, q) => ahead.map fun s => (⟨q, 0⟩, s)

/-- The closure of a kernel. It is the same in whatever order `expandAll` draws the consequences. -/
def closure (g : Flat) (f : First) (kernel : Items) : Items :=
  let (atStart, advanced) := kernel.partition (·.1.dot == 0)
  let found := atStart.foldl (fun found e => found.setIfInBounds e.1.production (some e.2))
    (Array.replicate g.productions.size none)
  let fuel := kernel.length + g.productions.size * (g.terminalCount + 1) + 1
  List.merge advanced (ofPredictions (expandAll g f fuel (found, kernel))) fun a b => a.1.le b.1

/-- The kernels that an item set leads to, by symbol. -/
def successors (g : Flat) (items : Items) : List (Kind × Items) :=
  groupByKind (items.filterMap fun (item, ahead) =>
    (g.stepsFrom item.production item.dot).head?.map fun s => (s.symbol, (item.advance, ahead)))

/-- The items without their lookaheads. -/
def cores (items : Items) : List Item := items.map (·.1)

/-- Unites the lookaheads of two item sets with the same cores. -/
def unite (a b : Items) : Items := List.zipWith (fun x y => (x.1, x.2.union y.2)) a b

end Items
end Reparse.Table
