import Reparse.Data.Search
import Reparse.Lexer.Token

/-! # Syntax trees without positions

Trees hold lengths and no offsets, so a subtree means the same wherever it stands. -/
namespace Reparse
open Text Data

/-- A token as a leaf. The text itself stays in the source. -/
structure Leaf where
  kind : Kind
  /-- The kind that the lexer found, before a keyword was read as a word. -/
  lexedKind : Kind
  length : Nat
  lookahead : Nat := 0
  mode : Nat := 0
  flags : Lexer.Flags := {}
deriving DecidableEq, Inhabited

namespace Leaf

def ofKind (kind : Kind) (length : Nat) : Leaf := { kind, lexedKind := kind, length }
def ofToken (t : Lexer.Token) : Leaf :=
  ⟨t.kind, t.kind, t.range.length, t.lookahead, t.mode, t.flags⟩
/-- Reads the token as another kind. -/
def reinterpret (l : Leaf) (kind : Kind) : Leaf := { l with kind }
def isError (l : Leaf) : Bool := l.flags.error

end Leaf

/-- What a node stores about itself and its subtree. -/
structure NodeInfo where
  kind : Kind
  length : Nat
  leafCount : Nat
  /-- Made by error recovery. -/
  isError : Bool
  /-- The node or something below it is an error. -/
  hasError : Bool
  /-- The parser state below the node when it was made. -/
  state : Nat
  /-- Indices of children with their fields, in order. -/
  fields : Array (Nat × Field)
deriving DecidableEq, Inhabited

inductive Tree where
  | leaf (l : Leaf)
  | node (info : NodeInfo) (children : List Tree)
deriving Inhabited

namespace Tree

def kind : Tree → Kind
  | .leaf l => l.kind
  | .node info _ => info.kind

def length : Tree → Nat
  | .leaf l => l.length
  | .node info _ => info.length

def leafCount : Tree → Nat
  | .leaf _ => 1
  | .node info _ => info.leafCount

def hasError : Tree → Bool
  | .leaf l => l.isError
  | .node info _ => info.hasError

def isErrorNode : Tree → Bool
  | .leaf _ => false
  | .node info _ => info.isError

def isNode : Tree → Bool
  | .leaf _ => false
  | .node _ _ => true

def children : Tree → List Tree
  | .leaf _ => []
  | .node _ children => children

def fields : Tree → Array (Nat × Field)
  | .leaf _ => #[]
  | .node info _ => info.fields

/-- What a node stores; none for a leaf. -/
def info? : Tree → Option NodeInfo
  | .leaf _ => none
  | .node info _ => some info

def leaf? : Tree → Option Leaf
  | .leaf l => some l
  | .node _ _ => none

/-- Fields in order of children and then of fields. -/
def sortFields (fields : List (Nat × Field)) : Array (Nat × Field) :=
  (fields.mergeSort fun a b => a.1 < b.1 || (a.1 == b.1 && a.2.id ≤ b.2.id)).toArray

/-- What the node over some children stores. -/
def infoOf (kind : Kind) (children : List Tree) (fields : List (Nat × Field)) (state : Nat)
    (isError : Bool) :
    NodeInfo :=
  children.foldl (fun info c => { info with
      length := plus info.length c.length
      leafCount := plus info.leafCount c.leafCount
      hasError := info.hasError || c.hasError })
    ⟨kind, 0, 0, isError, isError, state, sortFields fields⟩

/-- A node made by a reduction on top of `state`. -/
def branch (kind : Kind) (children : List Tree) (fields : List (Nat × Field)) (state : Nat) :
    Tree :=
  .node (infoOf kind children fields state false) children

/-- An error node for a span that could not be accepted. -/
def errorNode (children : List Tree) (state : Nat) : Tree :=
  .node (infoOf .error children [] state true) children

/-- An error node of another kind, for a root when parsing gave up. -/
def failedRoot (kind : Kind) (children : List Tree) : Tree :=
  .node (infoOf kind children [] 0 true) children

/-- The field of the child at an index. -/
def fieldOf? (t : Tree) (index : Nat) : Option Field := lookupSorted t.fields index

/-- The children with the field of each. -/
def labelledChildren (t : Tree) : List (Option Field × Tree) :=
  if t.fields.isEmpty then t.children.map (none, ·)
  else t.children.zipIdx.map fun (c, i) => (t.fieldOf? i, c)

mutual
/-- The number of nodes and leaves. -/
def weight : Tree → Nat
  | .leaf _ => 1
  | .node _ children => 1 + forestWeight children

def forestWeight : List Tree → Nat
  | [] => 0
  | t :: rest => t.weight + forestWeight rest
end

theorem weight_pos (t : Tree) : 0 < t.weight := by
  cases t with
  | leaf => exact Nat.one_pos
  | node => simp only [weight]; omega

theorem labelledChildren_snd (t : Tree) : t.labelledChildren.map (·.2) = t.children := by
  unfold labelledChildren
  split
  · simp [Function.comp_def]
  · have h : (fun p : Option Field × Tree => p.2) ∘
        (fun p : Tree × Nat => (t.fieldOf? p.2, p.1)) = Prod.fst := rfl
    rw [List.map_map, h, List.zipIdx_map_fst]

theorem forestWeight_append (a b : List Tree) :
    forestWeight (a ++ b) = forestWeight a + forestWeight b := by
  induction a with
  | nil => simp [forestWeight]
  | cons t rest ih => simp [forestWeight, ih, Nat.add_assoc]

/-- Whether two forests are equal, node by node. -/
def sameForest : List Tree → List Tree → Bool
  | [], [] => true
  | .leaf a :: rest, .leaf b :: rest' => if a = b then sameForest rest rest' else false
  | .node a as :: rest, .node b bs :: rest' =>
    if a = b ∧ as.length = bs.length then sameForest (as ++ rest) (bs ++ rest') else false
  | _, _ => false
termination_by forest => forestWeight forest
decreasing_by
  all_goals simp only [forestWeight, forestWeight_append, weight]; omega

instance : BEq Tree := ⟨fun a b => sameForest [a] [b]⟩

end Tree
end Reparse
