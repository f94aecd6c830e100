import Reparse.Parse.Lookahead

/-! # The parse stack -/
namespace Reparse.Parse

/-- A future child with the field that it was given. -/
abbrev Element := Option Field × Tree

/-- A node whose fields are those of the elements. -/
def branchOf (kind : Kind) (elements : List Element) (state : Nat) : Tree :=
  .branch kind (elements.map (·.2)) (elements.zipIdx.filterMap fun (e, i) => e.1.map (i, ·)) state

/-- What one push put on the stack: a token with the extras before it, a node, or the children of a
hidden rule. Error nodes join the entry that they follow. -/
structure Entry where
  state : Nat
  elements : Array Element
deriving Inhabited

namespace Entry

def trees (e : Entry) : List Tree := e.elements.toList.map (·.2)
def pushTree (e : Entry) (t : Tree) : Entry := { e with elements := e.elements.push (none, t) }

end Entry

/-- Fields name proper children only, no extras and no errors. -/
def takesField (l : Language) : Tree → Bool
  | .leaf leaf => !leaf.isError && !l.isExtra leaf.kind
  | .node info _ => !info.isError

/-- Gives a field to all elements that can take it and have none. -/
def label (l : Language) (elements : Array Element) : Option Field → Array Element
  | none => elements
  | some f => elements.map fun e => if e.1.isNone && takesField l e.2 then (some f, e.2) else e

/-- The elements of a right-hand side, with one field or none per entry. -/
def labelAll (l : Language) : List Entry → List (Option Field) → Array Element
  | e :: entries, f :: fields =>
    (entries.zip fields).foldl (fun all (e, f) => all ++ label l e.elements f)
      (label l e.elements f)
  | _, _ => #[]

/-- What a reduction on top of `state` pushes. Leading extras stay outside of the node; a hidden
rule makes none. -/
def reduced (l : Language) (lhs : Kind) (elements : Array Element) (state : Nat) : Array Element :=
  if l.isVisible lhs then
    let isTrivia (e : Element) : Bool := l.isTrivia e.2
    let inner := elements.toList.dropWhile isTrivia
    (elements.takeWhile isTrivia).push (none, branchOf lhs inner state)
  else elements

/-- Entries, top first, with at least one. -/
structure Stack where
  top : Entry
  below : List Entry
deriving Inhabited

namespace Stack

/-- The stack before the first token. -/
def initial : Stack := ⟨⟨0, #[]⟩, []⟩

def push (s : Stack) (e : Entry) : Stack := ⟨e, s.top :: s.below⟩

/-- Appends a tree to the top entry. -/
def append (s : Stack) (t : Tree) : Stack := { s with top := s.top.pushTree t }

/-- All entries, top last. -/
def entries (s : Stack) : List Entry := (s.top :: s.below).reverse

def trees (s : Stack) : List Tree := s.entries.flatMap (·.trees)

/-- The state that is uncovered by popping `n` entries, if one is left. -/
def uncovered? (s : Stack) : Nat → Option Nat
  | 0 => some s.top.state
  | n + 1 => s.below[n]?.map (·.state)

/-- Moves entries from the stack to those already popped, as long as there is one to uncover. -/
def popOnto (popped : List Entry) : Nat → Stack → List Entry × Stack
  | n + 1, ⟨top, e :: below⟩ => popOnto (top :: popped) n ⟨e, below⟩
  | _, s => (popped, s)

/-- Replaces the entries of a right-hand side by one entry for the left-hand side. -/
def reduce (l : Language) (info : Table.ProductionInfo) (next : Nat) (s : Stack) : Stack :=
  let (popped, s) := popOnto [] info.fields.size s
  let state := s.top.state
  s.push ⟨next, reduced l info.lhs (labelAll l popped info.fields.toList) state⟩

/-- The entries above the highest entry below the top whose state satisfies `p`, top last, and the
rest. -/
def unwindTo? (p : Nat → Bool) (s : Stack) : Option (List Entry × Stack) :=
  let stays (e : Entry) : Bool := !p e.state
  match s.below.dropWhile stays with
  | resume :: below => some ((s.top :: s.below.takeWhile stays).reverse, ⟨resume, below⟩)
  | [] => none

theorem below_lt_of_unwindTo? {p : Nat → Bool} {s r : Stack} {popped : List Entry}
    (h : s.unwindTo? p = some (popped, r)) : r.below.length < s.below.length := by
  simp only [unwindTo?] at h
  split at h
  · next resume below hd =>
    simp only [Option.some.injEq, Prod.mk.injEq] at h
    obtain ⟨-, rfl⟩ := h
    have hl := (List.dropWhile_sublist (l := s.below) fun e => !p e.state).length_le
    rw [hd] at hl
    exact hl
  · contradiction

/-- The root of an accepted text: the start node's children among what else is on the stack, and
`trailing`. -/
def root (s : Stack) (start : Kind) (trailing : List Tree) : Tree :=
  let isStart (e : Element) : Bool := e.2.isNode && e.2.kind == start && !e.2.isErrorNode
  let plain (t : Tree) : Element := (none, t)
  let before := (s.below.reverse.flatMap (·.trees)).map plain
  let down := s.top.elements.toList.reverse
  let top := match down.dropWhile fun e => !isStart e with
    | e :: inner =>
      let after := down.takeWhile fun e => !isStart e
      (inner.reverse.map fun e => plain e.2) ++ e.2.labelledChildren ++
        after.reverse.map fun e => plain e.2
    | [] => s.top.trees.map plain
  branchOf start (before ++ top ++ trailing.map plain) 0

end Stack
end Reparse.Parse
