import Mathlib.Algebra.GroupWithZero.Nat
import Reparse.SyntaxTree.Basic

/-! # The leaves of a tree, and what its nodes store about them -/
namespace Reparse
open Text

/-- The leaf as the lexer found it. -/
def Leaf.asLexed (l : Leaf) : Leaf := l.reinterpret l.lexedKind

namespace Leaf

@[simp] theorem asLexed_reinterpret (l : Leaf) (k : Kind) : (l.reinterpret k).asLexed = l.asLexed :=
  rfl
@[simp] theorem asLexed_asLexed (l : Leaf) : l.asLexed.asLexed = l.asLexed := rfl
@[simp] theorem length_asLexed (l : Leaf) : l.asLexed.length = l.length := rfl
@[simp] theorem isError_asLexed (l : Leaf) : l.asLexed.isError = l.isError := rfl
@[simp] theorem isError_reinterpret (l : Leaf) (k : Kind) : (l.reinterpret k).isError = l.isError :=
  rfl

end Leaf

namespace Tree

/-- Trees are built from leaves and from nodes over smaller trees. -/
theorem induction {P : Tree → Prop} (leaf : ∀ l, P (.leaf l))
    (node : ∀ info children, (∀ c ∈ children, P c) → P (.node info children)) (t : Tree) : P t := by
  refine @Tree.rec P (fun ts => ∀ c ∈ ts, P c) leaf node ?_ ?_ t
  · intro c hc
    contradiction
  · intro t rest ht hrest c hc
    rcases List.mem_cons.1 hc with rfl | hc
    · exact ht
    · exact hrest c hc

mutual
/-- The leaves in source order. -/
def frontier : Tree → List Leaf
  | .leaf l => [l]
  | .node _ children => forestFrontier children

/-- The leaves of several trees, one after another. -/
def forestFrontier : List Tree → List Leaf
  | [] => []
  | t :: rest => t.frontier ++ forestFrontier rest
end

theorem forestFrontier_eq_flatMap (ts : List Tree) : forestFrontier ts = ts.flatMap frontier := by
  induction ts with
  | nil => rfl
  | cons t rest ih => rw [forestFrontier, ih, List.flatMap_cons]

@[simp] theorem forestFrontier_append (a b : List Tree) :
    forestFrontier (a ++ b) = forestFrontier a ++ forestFrontier b := by
  simp only [forestFrontier_eq_flatMap, List.flatMap_append]

@[simp] theorem forestFrontier_leaves (ls : List Leaf) : forestFrontier (ls.map .leaf) = ls := by
  induction ls with
  | nil => rfl
  | cons l rest ih => simp only [List.map_cons, forestFrontier, frontier, ih, List.singleton_append]

theorem frontier_children (t : Tree) (h : t.isNode) : forestFrontier t.children = t.frontier := by
  cases t with
  | leaf l => contradiction
  | node info children => rfl

/-- Collects the leaves of one event. -/
private def collect (found : Array Leaf) : Visit → Array Leaf
  | .enter _ (.leaf l) => found.push l
  | _ => found

/-- A walk collects the leaves of a subtree before it goes on. -/
private theorem walkFrom_collect (t : Tree) (field : Option Field) (rest : List Visit)
    (found : Array Leaf) :
    walkFrom collect (.enter field t :: rest) found =
      walkFrom collect rest (found ++ t.frontier.toArray) := by
  induction t using Tree.induction generalizing field rest found with
  | leaf l => simp only [walkFrom, collect, frontier, Array.append_singleton]
  | node info children ih =>
    have below (cs : List (Option Field × Tree)) (hcs : ∀ p ∈ cs, p.2 ∈ children)
        (after : List Visit) (found : Array Leaf) :
        walkFrom collect (cs.map (fun p => .enter p.1 p.2) ++ after) found =
          walkFrom collect after (found ++ (forestFrontier (cs.map (·.2))).toArray) := by
      induction cs generalizing found with
      | nil => simp [forestFrontier]
      | cons c cs ihc =>
        rw [List.map_cons, List.cons_append, ih c.2 (hcs c (by simp)),
          ihc (fun p hp => hcs p (by simp [hp]))]
        simp [forestFrontier, Array.append_assoc]
    have hmem : ∀ p ∈ (Tree.node info children).labelledChildren, p.2 ∈ children := by
      intro p hp
      have h := List.mem_map_of_mem (f := (·.2)) hp
      rwa [labelledChildren_snd] at h
    rw [walkFrom]
    simp only [enterChildren, collect]
    rw [below _ hmem, labelledChildren_snd, walkFrom]
    rfl

theorem leaves_toList (t : Tree) : t.leaves.toList = t.frontier := by
  have h := walkFrom_collect t none [] #[]
  have hw : t.leaves = walkFrom collect [.enter none t] #[] := rfl
  rw [hw, h, walkFrom]
  simp

/-! ## What nodes store -/

/-- Every node stores what follows from its children. -/
inductive Consistent : Tree → Prop
  | leaf (l : Leaf) : Consistent (.leaf l)
  | node {kind children fields state isError} (below : ∀ c ∈ children, Consistent c) :
      Consistent (.node (infoOf kind children fields state isError) children)

theorem Consistent.children {t : Tree} (h : t.Consistent) : ∀ c ∈ t.children, c.Consistent := by
  cases h with
  | leaf l =>
    intro c hc
    contradiction
  | node below => exact below

/-- The number of bytes of some leaves. -/
def totalLength (ls : List Leaf) : Nat := (ls.map (·.length)).sum

@[simp] theorem totalLength_nil : totalLength [] = 0 := rfl

@[simp] theorem totalLength_cons (l : Leaf) (ls : List Leaf) :
    totalLength (l :: ls) = l.length + totalLength ls := by
  simp [totalLength]

@[simp] theorem totalLength_append (a b : List Leaf) :
    totalLength (a ++ b) = totalLength a + totalLength b := by
  simp [totalLength]

/-- The fold by which a node adds up its children. -/
private theorem foldl_info (children : List Tree) (info : NodeInfo) :
    children.foldl (fun info c => { info with
        length := plus info.length c.length
        leafCount := plus info.leafCount c.leafCount
        hasError := info.hasError || c.hasError }) info =
      { info with
        length := children.foldl (fun n c => plus n c.length) info.length
        leafCount := children.foldl (fun n c => plus n c.leafCount) info.leafCount
        hasError := info.hasError || children.any hasError } := by
  induction children generalizing info with
  | nil => simp
  | cons c rest ih => simp [ih, Bool.or_assoc]

/-- A saturating sum loses nothing that the saturated sum keeps. -/
theorem foldl_plus (children : List Tree) (stored exact : Tree → Nat) (start : Nat)
    (h : ∀ c ∈ children, clamp (stored c) = clamp (exact c)) :
    children.foldl (fun n c => plus n (stored c)) (clamp start) =
      clamp (start + (children.map exact).sum) := by
  induction children generalizing start with
  | nil => simp
  | cons c rest ih =>
    have hc : plus (clamp start) (stored c) = clamp (start + exact c) := by
      have := h c (by simp)
      simp only [plus, clamp, maxSize] at this ⊢
      omega
    rw [List.foldl_cons, hc, ih _ fun d hd => h d (by simp [hd])]
    simp [Nat.add_assoc]

variable {kind : Kind} {children : List Tree} {fields : List (Nat × Field)} {state : Nat}
  {isError : Bool}

theorem infoOf_eq : infoOf kind children fields state isError =
    ⟨kind, children.foldl (fun n c => plus n c.length) 0,
      children.foldl (fun n c => plus n c.leafCount) 0, isError,
      isError || children.any hasError, state, sortFields fields⟩ := foldl_info ..

@[simp] theorem kind_infoOf : (infoOf kind children fields state isError).kind = kind := by
  rw [infoOf_eq]

@[simp] theorem state_infoOf : (infoOf kind children fields state isError).state = state := by
  rw [infoOf_eq]

@[simp] theorem isError_infoOf : (infoOf kind children fields state isError).isError = isError := by
  rw [infoOf_eq]

@[simp] theorem fields_infoOf :
    (infoOf kind children fields state isError).fields = sortFields fields := by
  rw [infoOf_eq]

@[simp] theorem hasError_infoOf :
    (infoOf kind children fields state isError).hasError = (isError || children.any hasError) := by
  rw [infoOf_eq]

private theorem leafCount_infoOf : (infoOf kind children fields state isError).leafCount =
    children.foldl (fun n c => plus n c.leafCount) 0 := by
  rw [infoOf_eq]

private theorem length_infoOf : (infoOf kind children fields state isError).length =
    children.foldl (fun n c => plus n c.length) 0 := by
  rw [infoOf_eq]

private theorem length_forestFrontier (ts : List Tree) :
    (forestFrontier ts).length = (ts.map fun t => t.frontier.length).sum := by
  rw [forestFrontier_eq_flatMap, List.length_flatMap]

theorem totalLength_forestFrontier (ts : List Tree) :
    totalLength (forestFrontier ts) = (ts.map fun t => totalLength t.frontier).sum := by
  induction ts with
  | nil => rfl
  | cons t rest ih => simp [forestFrontier, ih]

@[simp] theorem clamp_clamp (n : Nat) : clamp (clamp n) = clamp n := by
  simp only [clamp]
  omega

/-- A consistent tree counts its leaves. -/
theorem Consistent.leafCount_eq {t : Tree} (h : t.Consistent) :
    t.leafCount = clamp t.frontier.length := by
  induction h with
  | leaf l => rfl
  | @node kind children fields state isError below ih =>
    have hsum := foldl_plus children leafCount (fun c => c.frontier.length) 0 fun c hc => by
      rw [ih c hc, clamp_clamp]
    rw [Nat.zero_add, ← length_forestFrontier] at hsum
    exact leafCount_infoOf.trans hsum

/-- A consistent tree is as long as its leaves. -/
theorem Consistent.clamp_length {t : Tree} (h : t.Consistent) :
    clamp t.length = clamp (totalLength t.frontier) := by
  induction h with
  | leaf l => simp [length, frontier]
  | @node kind children fields state isError below ih =>
    have hsum := foldl_plus children length (fun c => totalLength c.frontier) 0 ih
    rw [Nat.zero_add, ← totalLength_forestFrontier] at hsum
    rw [← clamp_clamp (totalLength _)]
    exact congrArg clamp (length_infoOf.trans hsum)

/-- A consistent node is as long as its leaves, as far as sizes go. -/
theorem Consistent.length_eq {t : Tree} (h : t.Consistent) (hn : t.isNode) :
    t.length = clamp (totalLength t.frontier) := by
  cases h with
  | leaf l => contradiction
  | @node kind children fields state isError below =>
    have hsum := foldl_plus children length (fun c => totalLength c.frontier) 0 fun c hc =>
      (below c hc).clamp_length
    rw [Nat.zero_add, ← totalLength_forestFrontier] at hsum
    exact length_infoOf.trans hsum

/-- A consistent tree without errors has none in its leaves. -/
theorem Consistent.noError {t : Tree} (h : t.Consistent) (he : t.hasError = false) :
    ∀ l ∈ t.frontier, l.isError = false := by
  induction h with
  | leaf l =>
    intro l' hl
    rw [List.mem_singleton.1 hl]
    exact he
  | @node kind children fields state isError below ih =>
    have hall : ∀ c ∈ children, c.hasError = false := by
      have : (infoOf kind children fields state isError).hasError = false := he
      simp only [hasError_infoOf, Bool.or_eq_false_iff, List.any_eq_false, Bool.not_eq_true] at this
      exact this.2
    intro l hl
    rw [frontier, forestFrontier_eq_flatMap, List.mem_flatMap] at hl
    obtain ⟨c, hc, hl⟩ := hl
    exact ih c hc (hall c hc) l hl

end Tree
end Reparse
