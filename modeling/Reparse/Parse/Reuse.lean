import Reparse.Edit.Relex
import Reparse.Parse.Lookahead

/-! # Subtrees of the previous tree that can be pushed as a whole -/
namespace Reparse.Parse

/-- A leaf of the previous tree. -/
structure OldSlot where
  /-- Subtrees that begin here and may be reused, outermost first. -/
  starting : List Tree
  extra : Bool
  /-- The leaf is an error or stands in an error node. -/
  inError : Bool
deriving Inhabited

/-- Where a walk over the previous tree is. -/
structure Survey where
  slots : Array OldSlot := #[]
  /-- Subtrees that were entered since the last leaf, innermost first. -/
  opened : List Tree := []
  /-- How many error nodes are open. -/
  errorDepth : Nat := 0
deriving Inhabited

namespace Survey

/-- Subtrees may be reused if they are visible nodes without errors. -/
def isReusable (l : Language) (t : Tree) : Bool := t.isNode && !t.hasError && l.isVisible t.kind

def visit (l : Language) (s : Survey) : Tree.Visit → Survey
  | .enter _ (.leaf leaf) =>
    { s with
      slots :=
        s.slots.push ⟨s.opened.reverse, l.isExtra leaf.kind, 0 < s.errorDepth || leaf.isError⟩
      opened := [] }
  | .enter _ t =>
    { s with
      opened := if isReusable l t then t :: s.opened else s.opened
      errorDepth := s.errorDepth + t.isErrorNode.toNat }
  | .leave t => { s with errorDepth := s.errorDepth - t.isErrorNode.toNat }

/-- The leaves below the root. -/
def ofTree (l : Language) (root : Tree) : Array OldSlot := (root.walkBelow (visit l) {}).slots

end Survey

/-- For each index up to `n` the first one from there on that satisfies `p`; `n` if there is
none. -/
def nextWhere (p : Nat → Bool) (n : Nat) : Array Nat :=
  let step (acc : Nat × Array Nat) (i : Nat) :=
    let next := if p i then i else acc.1
    (next, acc.2.push next)
  ((List.range n).reverse.foldl step (n, #[n])).2.reverse

/-- For each token the number of tokens from there on that were neighbours in the previous tree as
well. -/
def runLengths (stream : Array StreamToken) : Array Nat :=
  let step (t : StreamToken) (acc : Option Nat × Array Nat) :=
    let run := match t.origin with
      | none => 0
      | some i => if acc.1 = some (i + 1) then acc.2.back?.getD 0 + 1 else 1
    (t.origin, acc.2.push run)
  (stream.foldr step (none, #[])).2.reverse

/-- The previous tree beside the tokens of the new text. -/
structure Reuse where
  old : Array OldSlot
  /-- For each old leaf the next one that is not an extra. -/
  oldNext : Array Nat
  runs : Array Nat
  /-- For each token the next one that is not an extra. -/
  next : Array Nat
deriving Inhabited

namespace Reuse

def ofTree (l : Language) (previous : Tree) (stream : Array StreamToken) : Reuse :=
  let old := Survey.ofTree l previous
  { old
    oldNext := nextWhere (fun i => old[i]?.any (!·.extra)) old.size
    runs := runLengths stream
    next := nextWhere (fun i => stream[i]?.any fun t => !l.isExtra t.leaf.kind) stream.size }

/-- The next old leaf that matters, from a leaf on; the number of leaves stands for the end of
input. -/
def oldSignificant (r : Reuse) (leaf : Nat) : Nat := r.oldNext[leaf]?.getD r.old.size

/-- The next token that matters, from a position on. -/
def significant? (r : Reuse) (stream : Array StreamToken) (position : Nat) : Option StreamToken :=
  r.next[position]?.bind (stream[·]?)

/-- The old leaf of the next token that matters. -/
def significantOrigin (r : Reuse) (stream : Array StreamToken) (position : Nat) : Option Nat :=
  match r.significant? stream position with
  | some t => t.origin
  | none => some r.old.size

/-- The state after pushing the old subtree `t`, which begins at old leaf `origin`, on `state` at a
position. The subtree was made on the same state, it has leaves and all of them are here, the next
token is the same as then, was no error, and has an action afterwards: the parser would make the
same subtree. -/
def stateAfter? (r : Reuse) (l : Language) (stream : Array StreamToken)
    (position state origin : Nat) (t : Tree) :
    Option Nat :=
  let stop := position + t.leafCount
  let oldStop := r.oldSignificant (origin + t.leafCount)
  if 0 < t.leafCount && t.info?.any (·.state = state) && t.leafCount ≤ r.runs[position]?.getD 0 &&
      r.significantOrigin stream stop == some oldStop && !r.old[oldStop]?.any (·.inError) then
    (l.table.goto? state t.kind).filter fun next =>
      l.hasAction next ((r.significant? stream stop).map (·.leaf))
  else none

/-- The outermost subtree that can be pushed on `state` at a position, with the state to go to. -/
def candidate? (r : Reuse) (l : Language) (stream : Array StreamToken) (position state : Nat) :
    Option (Tree × Nat) := do
  let origin ← (← stream[position]?).origin
  (← r.old[origin]?).starting.findSome? fun t =>
    (r.stateAfter? l stream position state origin t).map (t, ·)

private theorem leafCount_pos_of_stateAfter? {r : Reuse} {l : Language} {stream : Array StreamToken}
    {position state origin next : Nat} {t : Tree}
    (h : r.stateAfter? l stream position state origin t = some next) :
    0 < t.leafCount := by
  simp only [stateAfter?] at h
  split at h
  · next hc => simp only [Bool.and_eq_true, decide_eq_true_eq] at hc; exact hc.1.1.1.1
  · contradiction

theorem lt_size_of_candidate? {r : Reuse} {l : Language} {stream : Array StreamToken}
    {position state next : Nat} {t : Tree}
    (h : r.candidate? l stream position state = some (t, next)) :
    position < stream.size ∧ 0 < t.leafCount := by
  obtain ⟨token, ht, h⟩ := Option.bind_eq_some_iff.1 h
  obtain ⟨origin, -, h⟩ := Option.bind_eq_some_iff.1 h
  obtain ⟨slot, -, h⟩ := Option.bind_eq_some_iff.1 h
  obtain ⟨u, -, hu⟩ := List.exists_of_findSome?_eq_some h
  obtain ⟨n, hn, he⟩ := Option.map_eq_some_iff.1 hu
  simp only [Prod.mk.injEq] at he
  obtain ⟨rfl, rfl⟩ := he
  exact ⟨(Array.getElem?_eq_some_iff.1 ht).1, leafCount_pos_of_stateAfter? hn⟩

end Reuse
end Reparse.Parse
