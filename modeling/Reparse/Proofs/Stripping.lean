import Reparse.Proofs.Derivation
import Reparse.Proofs.Images

/-! # Trees without extras -/
namespace Reparse
open Data Reparse.Tree Parse

/-- What the parser sees of a leaf: its kinds and flags, and not how long it is and how it was
lexed. -/
def Leaf.shape (leaf : Leaf) : Leaf := { leaf with length := 0, lookahead := 0, mode := 0 }

namespace Tree

mutual
/-- The tree without its extras. Of leaves the shapes are left. Nodes have their kinds, states and
marks as errors, and their other children with the fields that these have; counts are those of what
is left. -/
def strip (l : Language) : Tree → Tree
  | .leaf found => .leaf found.shape
  | .node info children =>
    let left := stripForest l (lookupSorted info.fields) 0 children
    .node (infoOf info.kind (left.map (·.2)) (indexedFields left) info.state info.isError)
      (left.map (·.2))

/-- Children from index `i` on, each with its field. -/
def stripForest (l : Language) (field? : Nat → Option Field) (i : Nat) : List Tree → List Element
  | [] => []
  | t :: rest =>
    if l.isTrivia t then stripForest l field? (i + 1) rest
    else (field? i, t.strip l) :: stripForest l field? (i + 1) rest
end

/-- Elements without extras. -/
def stripElements (l : Language) (es : List Element) : List Element :=
  mapElements (fun t => !l.isTrivia t) (strip l) es

variable {l : Language}

theorem strip_leaf (found : Leaf) : (leaf found).strip l = .leaf found.shape := by
  simp only [strip]

theorem stripForest_eq (field? : Nat → Option Field) (i : Nat) (ts : List Tree) :
    stripForest l field? i ts =
      stripElements l ((ts.zipIdx i).map fun (t, i) => (field? i, t)) := by
  induction ts generalizing i with
  | nil => simp [stripForest, stripElements, mapElements]
  | cons t rest ih =>
    simp only [stripForest, ih, List.zipIdx_cons, List.map_cons]
    cases htrivia : l.isTrivia t with
    | true => simp [stripElements, mapElements, htrivia]
    | false => simp [stripElements, mapElements, htrivia]

private theorem labelledChildren_eq (t : Tree) :
    t.labelledChildren = t.children.zipIdx.map fun (c, i) => (t.fieldOf? i, c) := by
  unfold labelledChildren
  split
  · next hempty =>
    have hnone (i : Nat) : t.fieldOf? i = none := by
      unfold fieldOf?
      rw [Array.isEmpty_iff.1 hempty]
      rfl
    simp only [hnone]
    apply List.ext_getElem?
    intro i
    simp [Function.comp_def]
  · rfl

theorem strip_node (info : NodeInfo) (children : List Tree) : (Tree.node info children).strip l =
    .node (infoOf info.kind ((stripElements l (Tree.node info children).labelledChildren).map (·.2))
        (indexedFields (stripElements l (Tree.node info children).labelledChildren))
          info.state info.isError)
      ((stripElements l (Tree.node info children).labelledChildren).map (·.2)) := by
  rw [labelledChildren_eq]
  simp only [strip, stripForest_eq]
  rfl

theorem strip_branchOf (kind : Kind) (es : List Element) (state : Nat) :
    (branchOf kind es state).strip l = branchOf kind (stripElements l es) state := by
  have hlabelled := labelledChildren_branchOf kind es state
  unfold branchOf branch at hlabelled ⊢
  rw [strip_node, hlabelled]
  simp only [kind_infoOf, state_infoOf, isError_infoOf]
  rfl

theorem strip_errorNode (ts : List Tree) (state : Nat) : (errorNode ts state).strip l =
    .errorNode ((ts.filter fun t => !l.isTrivia t).map (strip l)) state := by
  have hlabelled : (errorNode ts state).labelledChildren = ts.map Stack.bare := by
    have hfields : (errorNode ts state).fields = #[] := by
      change (infoOf .error ts [] state true).fields = #[]
      rw [fields_infoOf]
      exact sortFields_indexedFields []
    unfold labelledChildren
    rw [hfields]
    rfl
  have helements : stripElements l (ts.map Stack.bare) =
      ((ts.filter fun t => !l.isTrivia t).map (strip l)).map Stack.bare := by
    simp only [stripElements, mapElements, List.filter_map, List.map_map]
    rfl
  have hfields (us : List Tree) : indexedFields (us.map Stack.bare) = [] := by
    rw [List.eq_nil_iff_forall_not_mem]
    rintro ⟨i, f⟩ hmem
    obtain ⟨t, ht⟩ := mem_indexedFields.1 hmem
    simp [Stack.bare] at ht
  unfold errorNode at hlabelled ⊢
  rw [strip_node, hlabelled, helements, hfields, Stack.map_bare_snd]
  simp only [kind_infoOf, state_infoOf, isError_infoOf]

theorem labelledChildren_strip (t : Tree) :
    (t.strip l).labelledChildren = stripElements l t.labelledChildren := by
  cases t with
  | leaf => rw [strip_leaf]; rfl
  | node info children =>
    -- the mark of an error is the only difference from a branch
    have hbranch := labelledChildren_branchOf info.kind
      (stripElements l (node info children).labelledChildren) info.state
    rw [← hbranch]
    have hfields : ((node info children).strip l).fields = (branchOf info.kind
        (stripElements l (node info children).labelledChildren) info.state).fields := by
      rw [fields_branchOf, strip_node, fields, fields_infoOf, sortFields_indexedFields]
    have hchildren : ((node info children).strip l).children = (branchOf info.kind
        (stripElements l (node info children).labelledChildren) info.state).children := by
      rw [strip_node]
      rfl
    rw [labelledChildren_eq, labelledChildren_eq, hchildren]
    simp only [fieldOf?, hfields]

/-- Trees without extras, as images of the whole trees. -/
def stripping (l : Language) : Image l where
  keeps t := !l.isTrivia t
  tree := strip l
  state := id
  keeps_proper t h := by rw [h]; rfl
  isTrivia_tree t := by
    cases t with
    | leaf => rw [strip_leaf]; rfl
    | node => rw [strip_node]; rfl
  takesField_tree t := by
    cases t with
    | leaf => rw [strip_leaf]; rfl
    | node info children => simp [strip_node, takesField]
  isStart_tree start t := by
    cases t with
    | leaf => rw [strip_leaf]; rfl
    | node info children => simp [strip_node, Stack.isStart, isNode, Tree.kind, isErrorNode]
  tree_branchOf := strip_branchOf
  tree_errorNode := strip_errorNode
  labelledChildren_tree := labelledChildren_strip
  state_zero := rfl

end Tree
end Reparse
