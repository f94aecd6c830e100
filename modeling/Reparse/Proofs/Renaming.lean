import Reparse.Proofs.Images
import Reparse.SyntaxTree.Sexp

/-! # Trees with other states -/
namespace Reparse
open Data Parse Text

namespace Tree

mutual
/-- The tree with the states of its nodes renamed. -/
def rename (f : Nat → Nat) : Tree → Tree
  | .leaf found => .leaf found
  | .node info children => .node { info with state := f info.state } (renameForest f children)

def renameForest (f : Nat → Nat) : List Tree → List Tree
  | [] => []
  | t :: rest => t.rename f :: renameForest f rest
end

/-- The tree but for the states of its nodes. -/
def stateless (t : Tree) : Tree := t.rename fun _ => 0

variable {f : Nat → Nat}

theorem rename_leaf (f : Nat → Nat) (found : Leaf) : (Tree.leaf found).rename f = .leaf found := by
  simp only [rename]

private theorem renameForest_eq (f : Nat → Nat) (ts : List Tree) :
    renameForest f ts = ts.map (rename f) := by
  induction ts with
  | nil => simp only [renameForest, List.map_nil]
  | cons t rest ih => simp only [renameForest, ih, List.map_cons]

theorem rename_node (f : Nat → Nat) (info : NodeInfo) (children : List Tree) :
    (Tree.node info children).rename f =
      .node { info with state := f info.state } (children.map (rename f)) := by
  simp only [rename, renameForest_eq]

/-! ## What stays -/

@[simp] theorem length_rename (t : Tree) : (t.rename f).length = t.length := by
  cases t with
  | leaf => rw [rename_leaf]
  | node => rw [rename_node]; rfl

@[simp] theorem leafCount_rename (t : Tree) : (t.rename f).leafCount = t.leafCount := by
  cases t with
  | leaf => rw [rename_leaf]
  | node => rw [rename_node]; rfl

@[simp] theorem hasError_rename (t : Tree) : (t.rename f).hasError = t.hasError := by
  cases t with
  | leaf => rw [rename_leaf]
  | node => rw [rename_node]; rfl

@[simp] theorem fields_rename (t : Tree) : (t.rename f).fields = t.fields := by
  cases t with
  | leaf => rw [rename_leaf]
  | node => rw [rename_node]; rfl

@[simp] theorem children_rename (t : Tree) : (t.rename f).children = t.children.map (rename f) := by
  cases t with
  | leaf => rw [rename_leaf]; rfl
  | node => rw [rename_node]; rfl

private theorem labelledChildren_rename (t : Tree) :
    (t.rename f).labelledChildren = t.labelledChildren.map fun e => (e.1, e.2.rename f) := by
  unfold labelledChildren fieldOf?
  rw [fields_rename, children_rename]
  split
  · simp only [List.map_map]
    rfl
  · simp only [List.zipIdx_map, List.map_map]
    rfl

/-- Names of states are renamed one after another. -/
theorem rename_rename (f g : Nat → Nat) (t : Tree) : (t.rename f).rename g = t.rename (g ∘ f) := by
  induction t using Tree.induction with
  | leaf found => simp only [rename_leaf]
  | node info children ih =>
    rw [rename_node, rename_node, rename_node, List.map_map]
    congr 1
    exact List.map_congr_left fun c hc => ih c hc

theorem stateless_rename (t : Tree) : (t.rename f).stateless = t.stateless := rename_rename f _ t

private theorem infoOf_rename (kind : Kind) (ts : List Tree) (fields : List (Nat × Field))
    (state : Nat) (isError : Bool) :
    infoOf kind (ts.map (rename f)) fields (f state) isError =
      { infoOf kind ts fields state isError with state := f state } := by
  rw [infoOf_eq, infoOf_eq]
  simp only [List.foldl_map, List.any_map, Function.comp_def, length_rename,
    leafCount_rename, hasError_rename]

/-! ## Images -/

theorem mapElements_rename (es : List Element) :
    mapElements (fun _ => true) (rename f) es = es.map fun e => (e.1, e.2.rename f) := by
  unfold mapElements
  rw [List.filter_eq_self.2 fun _ _ => rfl]

private theorem indexedFields_rename (es : List Element) :
    indexedFields (es.map fun e => (e.1, e.2.rename f)) = indexedFields es := by
  unfold indexedFields
  rw [List.zipIdx_map, List.filterMap_map]
  rfl

theorem rename_branchOf (kind : Kind) (es : List Element) (state : Nat) :
    (branchOf kind es state).rename f =
      branchOf kind (mapElements (fun _ => true) (rename f) es) (f state) := by
  have htrees : (es.map fun e => (e.1, e.2.rename f)).map (·.2) =
      (es.map (·.2)).map (rename f) := by
    simp only [List.map_map]
    rfl
  change (Tree.node (infoOf kind (es.map (·.2)) (indexedFields es) state false)
      (es.map (·.2))).rename f =
        .node (infoOf kind _ (indexedFields _) (f state) false) _
  rw [mapElements_rename, indexedFields_rename, htrees, rename_node, infoOf_rename, state_infoOf]

theorem rename_errorNode (ts : List Tree) (state : Nat) : (errorNode ts state).rename f =
    .errorNode ((ts.filter fun _ => true).map (rename f)) (f state) := by
  rw [List.filter_eq_self.2 fun _ _ => rfl]
  unfold errorNode
  rw [rename_node, infoOf_rename, state_infoOf]

/-- Trees with renamed states, as images of the trees. -/
def renamed (l : Language) (f : Nat → Nat) (hzero : f 0 = 0) : Image l where
  keeps _ := true
  tree := rename f
  state := f
  keeps_proper _ _ := rfl
  isTrivia_tree t := by
    cases t with
    | leaf => rw [rename_leaf]
    | node => rw [rename_node]; rfl
  takesField_tree t := by
    cases t with
    | leaf => rw [rename_leaf]
    | node => rw [rename_node]; rfl
  isStart_tree start t := by
    cases t with
    | leaf => rw [rename_leaf]
    | node => rw [rename_node]; rfl
  tree_branchOf := rename_branchOf
  tree_errorNode := rename_errorNode
  labelledChildren_tree t := by rw [labelledChildren_rename, mapElements_rename]
  state_zero := hzero

/-! ## Walks -/

/-- The event of the tree with renamed states. -/
def Visit.rename (f : Nat → Nat) : Visit → Visit
  | .enter field t => .enter field (t.rename f)
  | .leave t => .leave (t.rename f)

/-- A walk that does not look at states is the same with other states. -/
theorem walkFrom_rename {σ : Type} {visit : σ → Visit → σ}
    (h : ∀ s v, visit s (v.rename f) = visit s v) (visits : List Visit) (s : σ) :
    walkFrom visit (visits.map (Visit.rename f)) s = walkFrom visit visits s := by
  fun_induction walkFrom visit visits s with
  | case1 s => rw [List.map_nil, walkFrom]
  | case2 field found rest s ih =>
    have hvisit := h s (.enter field (.leaf found))
    simp only [Visit.rename, rename_leaf] at hvisit
    simp only [List.map_cons, Visit.rename, rename_leaf, walkFrom]
    exact ih
  | case3 field info below rest s t ih =>
    have hvisit := h s (.enter field t)
    have hchildren : (t.rename f).enterChildren = t.enterChildren.map (Visit.rename f) := by
      simp only [enterChildren, labelledChildren_rename, List.map_map]
      rfl
    rw [List.map_append, ← hchildren, List.map_cons] at ih
    have hnode : t.rename f = .node { info with state := f info.state } (below.map (rename f)) :=
      rename_node f info below
    rw [Visit.rename, hnode] at hvisit
    rw [Visit.rename, hnode] at ih
    rw [List.map_cons, Visit.rename, hnode, walkFrom, hvisit]
    exact ih
  | case4 t rest s ih =>
    rw [List.map_cons, Visit.rename, walkFrom, ← ih]
    exact congrArg _ (h s (.leave t))

end Tree

namespace SyntaxTree

/-- S-expressions do not show states. -/
private theorem walk_sexpVisit_stateless (l : Language) (t : Tree) :
    t.stateless.walk (sexpVisit l) "" = t.walk (sexpVisit l) "" := by
  refine Tree.walkFrom_rename (fun text v => ?_) [.enter none t] ""
  cases v with
  | leave => rfl
  | enter field t =>
    cases t with
    | leaf => rw [Tree.Visit.rename, Tree.rename_leaf]
    | node => rw [Tree.Visit.rename, Tree.rename_node]; rfl

/-- Trees that differ in states only have the same S-expression, if their languages name things
alike. -/
theorem sexp_eq_of_stateless {a b : SyntaxTree} (h : a.root.stateless = b.root.stateless)
    (hlanguage : sexpVisit a.language = sexpVisit b.language) : a.sexp = b.sexp := by
  rw [sexp, sexp, ← walk_sexpVisit_stateless, h, walk_sexpVisit_stateless, hlanguage]

end SyntaxTree
end Reparse
