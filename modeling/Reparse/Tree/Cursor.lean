import Reparse.Tree.Basic

/-! # Places in a tree -/
namespace Reparse.Tree
open Text

/-- A subtree with its absolute offset and the way up to the root. -/
inductive Cursor where
  | root (t : Tree)
  | child (parent : Cursor) (index offset : Nat) (t : Tree)
deriving Inhabited

namespace Cursor

def tree : Cursor → Tree
  | .root t | .child _ _ _ t => t

def offset : Cursor → Nat
  | .root _ => 0
  | .child _ _ offset _ => offset

/-- The position among the parent's children. -/
def index : Cursor → Nat
  | .root _ => 0
  | .child _ index _ _ => index

def parent? : Cursor → Option Cursor
  | .root _ => none
  | .child parent .. => some parent

def isRoot : Cursor → Bool
  | .root _ => true
  | .child .. => false

def top : Cursor → Cursor
  | .root t => .root t
  | .child parent .. => parent.top

def range (c : Cursor) : Range := .ofLength c.offset c.tree.length
def field? (c : Cursor) : Option Field := c.parent?.bind fun p => p.tree.fieldOf? c.index

/-- The place itself and all places above it. -/
def ancestors : Cursor → List Cursor
  | .root t => [.root t]
  | .child parent index offset t => .child parent index offset t :: parent.ancestors

/-- The place of a child. Indices saturate as sizes do. -/
def childPlace (parent : Cursor) (index offset : Nat) (t : Tree) : Cursor :=
  .child parent (clamp index) offset t

/-- The places of some children of `parent`, from an index and an offset on, after those in
`done`. -/
def childrenFrom (parent : Cursor) (done : List Cursor) :
    (index offset : Nat) → List Tree → List Cursor
  | _, _, [] => done.reverse
  | index, offset, t :: rest =>
    childrenFrom parent (parent.childPlace index offset t :: done) (index + 1)
      (plus offset t.length) rest

def children (c : Cursor) : List Cursor := childrenFrom c [] 0 c.offset c.tree.children
def childNodes (c : Cursor) : List Cursor := c.children.filter (·.tree.isNode)

/-- The child at an index, whose offset is found by adding up the lengths before it. -/
def childAt? (c : Cursor) (index : Nat) : Option Cursor :=
  c.tree.children[index]?.map fun t =>
    c.childPlace index
      ((c.tree.children.take index).foldl (fun offset t => plus offset t.length) c.offset) t

def firstChild? (c : Cursor) : Option Cursor := c.childAt? 0
def lastChild? (c : Cursor) : Option Cursor :=
  if c.tree.children.isEmpty then none else c.childAt? (c.tree.children.length - 1)
def nextSibling? (c : Cursor) : Option Cursor := c.parent?.bind (·.childAt? (c.index + 1))
def prevSibling? (c : Cursor) : Option Cursor :=
  if c.index = 0 then none else c.parent?.bind (·.childAt? (c.index - 1))

def childrenByField (c : Cursor) (f : Field) : List Cursor :=
  c.children.filter fun inner => c.tree.fieldOf? inner.index == some f

private theorem childrenFrom_tree (parent : Cursor) (done : List Cursor) (index offset : Nat)
    (ts : List Tree) :
    (childrenFrom parent done index offset ts).map tree = done.reverse.map tree ++ ts := by
  induction ts generalizing index offset done with
  | nil => simp [childrenFrom]
  | cons t rest ih => simp [childrenFrom, childPlace, tree, ih]

private theorem children_tree (c : Cursor) : c.children.map tree = c.tree.children :=
  childrenFrom_tree ..

theorem forestWeight_children (t : Tree) : forestWeight t.children < t.weight := by
  cases t <;> simp [Tree.children, forestWeight, weight]

private theorem weight_of_mem {t : Tree} {ts : List Tree} (h : t ∈ ts) :
    t.weight ≤ forestWeight ts := by
  induction h with
  | head rest => simp [forestWeight]
  | tail u _ ih => simp only [forestWeight]; omega

private theorem forestWeight_filter (cs : List Cursor) (p : Cursor → Bool) :
    forestWeight ((cs.filter p).map tree) ≤ forestWeight (cs.map tree) := by
  induction cs with
  | nil => exact Nat.le_refl _
  | cons c rest ih =>
    rw [List.filter_cons]
    split
    · simp only [List.map_cons, forestWeight]; omega
    · simp only [List.map_cons, forestWeight]; omega

/-- Takes nodes from a stack, of which each leaves its child nodes there. -/
def descendantsFrom : (stack : List Cursor) → (found : Array Cursor) → Array Cursor
  | [], found => found
  | c :: stack, found => descendantsFrom (c.childNodes ++ stack) (found.push c)
termination_by stack => forestWeight (stack.map tree)
decreasing_by
  have hnodes := forestWeight_filter c.children (·.tree.isNode)
  have := forestWeight_children c.tree
  rw [children_tree] at hnodes
  rw [List.map_append, forestWeight_append, List.map_cons, forestWeight]
  unfold childNodes
  omega

/-- The node and all nodes below it, in preorder. -/
def descendants (c : Cursor) : Array Cursor := descendantsFrom [c] #[]

/-- Children of a node that a walk has yet to visit, with the index and the offset of the first of
them. -/
structure Siblings where
  parent : Cursor
  index : Nat
  offset : Nat
  rest : List Tree

def siblings (c : Cursor) : Siblings := ⟨c, 0, c.offset, c.tree.children⟩

/-- More than the number of steps that a walk over the siblings takes. -/
def Siblings.weight (s : Siblings) : Nat := 2 * forestWeight s.rest + 1

def Siblings.totalWeight : List Siblings → Nat
  | [] => 0
  | s :: stack => s.weight + totalWeight stack

/-- Goes on with the siblings on top of a stack. A node leaves its children there. -/
def tokensFrom : (stack : List Siblings) → (found : Array Cursor) → Array Cursor
  | [], found => found
  | ⟨_, _, _, []⟩ :: stack, found => tokensFrom stack found
  | ⟨parent, index, offset, .leaf l :: rest⟩ :: stack, found =>
    tokensFrom (⟨parent, index + 1, plus offset l.length, rest⟩ :: stack)
      (found.push (parent.childPlace index offset (.leaf l)))
  | ⟨parent, index, offset, .node info children :: rest⟩ :: stack, found =>
    tokensFrom ((parent.childPlace index offset (.node info children)).siblings ::
      ⟨parent, index + 1, plus offset info.length, rest⟩ :: stack) found
termination_by stack => Siblings.totalWeight stack
decreasing_by
  · simp only [Siblings.totalWeight, Siblings.weight]; omega
  · simp only [Siblings.totalWeight, Siblings.weight, forestWeight, Tree.weight]; omega
  · simp only [Siblings.totalWeight, Siblings.weight, siblings, childPlace, tree, Tree.children,
  forestWeight, Tree.weight]
    omega

/-- The leaves below the place, in source order. -/
def tokens (c : Cursor) : Array Cursor := tokensFrom [c.siblings] #[]
def firstToken? (c : Cursor) : Option Cursor := c.tokens[0]?

/-- The smallest node below that holds the range, or the place itself. -/
def covering (c : Cursor) (r : Range) : Cursor :=
  match _h : c.childNodes.find? fun inner => inner.range.encloses r && !inner.range.isEmpty with
  | some inner => inner.covering r
  | none => c
termination_by c.tree.weight
decreasing_by
  have hm : inner ∈ c.children := (List.mem_filter.1 (List.mem_of_find?_eq_some _h)).1
  have ht : inner.tree ∈ c.tree.children := children_tree c ▸ List.mem_map_of_mem hm
  exact Nat.lt_of_le_of_lt (weight_of_mem ht) (forestWeight_children c.tree)

/-- Kind and range. -/
def debugText (c : Cursor) : String := s!"{c.tree.kind.debugText}@{c.range.render}"

end Cursor
end Reparse.Tree
