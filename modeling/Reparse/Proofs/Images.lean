import Reparse.Proofs.Fields
import Reparse.Proofs.Moves

/-! # Maps of trees that the parse stack respects -/
namespace Reparse.Parse
open Reparse.Tree

private theorem filter_takeWhile_of_imp {α : Type} {p keeps : α → Bool}
    (h : ∀ a, keeps a = false → p a = true) (xs : List α) :
    (xs.takeWhile p).filter keeps = (xs.filter keeps).takeWhile p := by
  induction xs with
  | nil => rfl
  | cons a rest ih =>
    cases hk : keeps a with
    | false => simp [hk, h a hk, ih]
    | true => cases hp : p a <;> simp [hk, hp, ih]

private theorem filter_dropWhile_of_imp {α : Type} {p keeps : α → Bool}
    (h : ∀ a, keeps a = false → p a = true) (xs : List α) :
    (xs.dropWhile p).filter keeps = (xs.filter keeps).dropWhile p := by
  induction xs with
  | nil => rfl
  | cons a rest ih =>
    cases hk : keeps a with
    | false => simp [hk, h a hk, ih]
    | true => cases hp : p a <;> simp [hk, hp, ih]

/-- The elements of the top entry as acceptance leaves them. -/
def spliceStart (start : Kind) (es : List Element) : List Element :=
  match es.reverse.dropWhile fun e => !Stack.isStart start e.2 with
  | e :: inner => (inner.reverse.map fun e => Stack.bare e.2) ++ e.2.labelledChildren ++
      (es.reverse.takeWhile fun e => !Stack.isStart start e.2).reverse.map fun e => Stack.bare e.2
  | [] => (es.map (·.2)).map Stack.bare

private theorem root_eq (start : Kind) (s : Stack) (trailing : List Tree) : s.root start trailing =
    branchOf start (s.treesBelow.map Stack.bare ++ spliceStart start s.top.elements.toList ++
      trailing.map Stack.bare) 0 :=
  rfl

/-- Maps the kept elements and leaves their fields as they are. -/
def mapElements (keeps : Tree → Bool) (f : Tree → Tree) (es : List Element) : List Element :=
  (es.filter fun e => keeps e.2).map fun e => (e.1, f e.2)

/-- A map of trees and states. It may leave out extras. What the parser asks of a tree has the same
answer for its image, and nodes go to nodes over the images of their children. -/
structure Image (l : Language) where
  keeps : Tree → Bool
  tree : Tree → Tree
  state : Nat → Nat
  keeps_proper : ∀ t, l.isTrivia t = false → keeps t = true
  isTrivia_tree : ∀ t, l.isTrivia (tree t) = l.isTrivia t
  takesField_tree : ∀ t, takesField l (tree t) = takesField l t
  isStart_tree : ∀ start t, Stack.isStart start (tree t) = Stack.isStart start t
  tree_branchOf : ∀ kind es s, tree (branchOf kind es s) =
    branchOf kind (mapElements keeps tree es) (state s)
  tree_errorNode : ∀ ts s, tree (.errorNode ts s) =
    .errorNode ((ts.filter keeps).map tree) (state s)
  labelledChildren_tree : ∀ t, (tree t).labelledChildren = mapElements keeps tree t.labelledChildren
  state_zero : state 0 = 0

namespace Image

variable {l : Language} (v : Image l)

def forest (ts : List Tree) : List Tree := (ts.filter v.keeps).map v.tree
def elements (es : List Element) : List Element := mapElements v.keeps v.tree es
def entry (e : Entry) : Entry := ⟨v.state e.state, (v.elements e.elements.toList).toArray⟩
def stack (s : Stack) : Stack := ⟨v.entry s.top, s.below.map v.entry⟩

/-! ## Elements -/

theorem keeps_node {t : Tree} (h : t.isNode = true) : v.keeps t = true := by
  refine v.keeps_proper t ?_
  cases t with
  | leaf => contradiction
  | node => rfl

@[simp] theorem forest_append (ts us : List Tree) :
    v.forest (ts ++ us) = v.forest ts ++ v.forest us := by
  simp [forest]

@[simp] theorem elements_append (es ds : List Element) :
    v.elements (es ++ ds) = v.elements es ++ v.elements ds := by
  simp [elements, mapElements]

private theorem elements_flatMap {α : Type} (f : α → List Element) (xs : List α) :
    v.elements (xs.flatMap f) = xs.flatMap fun x => v.elements (f x) := by
  induction xs with
  | nil => rfl
  | cons x rest ih => rw [List.flatMap_cons, List.flatMap_cons, elements_append, ih]

private theorem elements_reverse (es : List Element) :
    v.elements es.reverse = (v.elements es).reverse := by
  simp [elements, mapElements]

theorem elements_singleton {e : Element} (h : v.keeps e.2 = true) :
    v.elements [e] = [(e.1, v.tree e.2)] := by
  simp [elements, mapElements, h]

theorem elements_bare (ts : List Tree) :
    v.elements (ts.map Stack.bare) = (v.forest ts).map Stack.bare := by
  simp only [elements, mapElements, forest, List.filter_map, List.map_map]
  rfl

theorem forest_trees (es : List Element) : v.forest (es.map (·.2)) = (v.elements es).map (·.2) := by
  simp only [elements, mapElements, forest, List.filter_map, List.map_map]
  rfl

/-- What the image leaves out satisfies `p`, and `p` is the same for images. -/
structure Respects (p : Tree → Bool) : Prop where
  left_out : ∀ t, v.keeps t = false → p t = true
  same : ∀ t, p (v.tree t) = p t

variable {v}

private theorem Respects.takeWhile {p : Tree → Bool} (h : v.Respects p) (es : List Element) :
    v.elements (es.takeWhile fun e => p e.2) = (v.elements es).takeWhile fun e => p e.2 := by
  unfold elements mapElements
  rw [filter_takeWhile_of_imp fun e he => h.left_out e.2 he, List.takeWhile_map]
  simp only [Function.comp_def, h.same]

private theorem Respects.dropWhile {p : Tree → Bool} (h : v.Respects p) (es : List Element) :
    v.elements (es.dropWhile fun e => p e.2) = (v.elements es).dropWhile fun e => p e.2 := by
  unfold elements mapElements
  rw [filter_dropWhile_of_imp fun e he => h.left_out e.2 he, List.dropWhile_map]
  simp only [Function.comp_def, h.same]

variable (v)

private theorem respects_isTrivia : v.Respects l.isTrivia where
  left_out := by
    intro t ht
    cases htrivia : l.isTrivia t with
    | true => rfl
    | false =>
      rw [v.keeps_proper t htrivia] at ht
      contradiction
  same := v.isTrivia_tree

private theorem respects_not_isStart (start : Kind) :
    v.Respects fun t => !Stack.isStart start t where
  left_out := by
    intro t ht
    cases hnode : t.isNode with
    | false => simp [Stack.isStart, hnode]
    | true =>
      rw [v.keeps_node hnode] at ht
      contradiction
  same t := by rw [v.isStart_tree]

/-! ## Right-hand sides -/

private theorem toList_label (es : Array Element) (field : Option Field) :
    v.elements (label l es field).toList =
      (label l (v.elements es.toList).toArray field).toList := by
  cases field with
  | none => rfl
  | some f =>
    simp only [label, Array.toList_map, elements, mapElements, List.filter_map, List.map_map]
    have hfilter : ((fun e : Element => v.keeps e.2) ∘ fun e : Element =>
        if (e.1.isNone && takesField l e.2) = true then (some f, e.2) else e) =
          fun e : Element => v.keeps e.2 := by
      funext e
      simp only [Function.comp]
      split <;> rfl
    rw [hfilter]
    refine List.map_congr_left fun e _ => ?_
    simp only [Function.comp, v.takesField_tree]
    split <;> rfl

private theorem toList_labelAll (entries : List Entry) (fields : List (Option Field)) :
    v.elements (labelAll l entries fields).toList =
      (labelAll l (entries.map v.entry) fields).toList := by
  rw [Parse.toList_labelAll, Parse.toList_labelAll, elements_flatMap,
    List.zip_map_left, List.flatMap_map]
  simp only [v.toList_label]
  rfl

private theorem toList_reduced (lhs : Kind) (es : Array Element) (state : Nat) :
    v.elements (reduced l lhs es state).toList =
      (reduced l lhs (v.elements es.toList).toArray (v.state state)).toList := by
  unfold reduced
  split
  · have hnode : v.keeps (branchOf lhs (es.toList.dropWhile fun e => l.isTrivia e.2) state) =
        true := v.keeps_node rfl
    simp only [Array.toList_push, Array.toList_takeWhile, elements_append,
      v.respects_isTrivia.takeWhile]
    rw [v.elements_singleton hnode, v.tree_branchOf, ← elements, v.respects_isTrivia.dropWhile]
  · rfl

/-! ## Stacks -/

private theorem trees_entry (e : Entry) : (v.entry e).trees = v.forest e.trees :=
  (v.forest_trees _).symm

theorem forest_flatMap_trees (entries : List Entry) :
    v.forest (entries.flatMap (·.trees)) = (entries.map v.entry).flatMap (·.trees) := by
  induction entries with
  | nil => rfl
  | cons e rest ih =>
    rw [List.flatMap_cons, forest_append, ih, List.map_cons, List.flatMap_cons, trees_entry]

theorem stack_push (s : Stack) (e : Entry) : v.stack (s.push e) = (v.stack s).push (v.entry e) :=
  rfl

theorem stack_append (s : Stack) (ts : List Tree) (state : Nat) :
    v.stack (s.append (.errorNode ts state)) =
      (v.stack s).append (.errorNode (v.forest ts) (v.state state)) := by
  have hnode : v.keeps (.errorNode ts state) = true := v.keeps_node rfl
  simp only [stack, Stack.append, entry, Entry.pushTree, Array.toList_push, elements_append]
  rw [v.elements_singleton hnode, v.tree_errorNode]
  simp [forest]

theorem uncovered?_stack (s : Stack) (n : Nat) :
    (v.stack s).uncovered? n = (s.uncovered? n).map v.state := by
  cases n with
  | zero => rfl
  | succ n => simp [Stack.uncovered?, stack, Function.comp_def, entry]

private theorem popOnto_stack (popped : List Entry) (n : Nat) (s : Stack) :
    Stack.popOnto (popped.map v.entry) n (v.stack s) =
      ((Stack.popOnto popped n s).1.map v.entry, v.stack (Stack.popOnto popped n s).2) := by
  induction n generalizing popped s with
  | zero => rfl
  | succ n ih =>
    obtain ⟨top, below⟩ := s
    cases below with
    | nil => rfl
    | cons e below => exact ih (top :: popped) ⟨e, below⟩

theorem stack_reduce (info : Table.ProductionInfo) (next : Nat) (s : Stack) :
    v.stack (s.reduce l info next) = (v.stack s).reduce l info (v.state next) := by
  have hpop := v.popOnto_stack [] info.fields.size s
  rw [List.map_nil] at hpop
  simp only [Stack.reduce, hpop, stack_push]
  congr 1
  simp only [entry, v.toList_reduced, v.toList_labelAll]
  rfl

theorem unwindTo?_stack {p q : Nat → Bool} (h : ∀ state, q (v.state state) = p state) (s : Stack) :
    (v.stack s).unwindTo? q = (s.unwindTo? p).map fun r => (r.1.map v.entry, v.stack r.2) := by
  have hstays : (fun e : Entry => !q e.state) ∘ v.entry = fun e => !p e.state := by
    funext e
    exact congrArg (!·) (h e.state)
  simp only [Stack.unwindTo?, stack, List.dropWhile_map, List.takeWhile_map, hstays]
  cases s.below.dropWhile fun e => !p e.state with
  | nil => rfl
  | cons e below => simp

private theorem elements_labelledChildren (t : Tree) :
    v.elements t.labelledChildren = (v.tree t).labelledChildren :=
  (v.labelledChildren_tree t).symm

private theorem elements_map_bare (es : List Element) :
    v.elements (es.map fun e => Stack.bare e.2) = (v.elements es).map fun e => Stack.bare e.2 := by
  have h := v.elements_bare (es.map (·.2))
  rwa [v.forest_trees, List.map_map, List.map_map] at h

private theorem elements_spliceStart (start : Kind) (es : List Element) :
    v.elements (spliceStart start es) = spliceStart start (v.elements es) := by
  have hdrop := (v.respects_not_isStart start).dropWhile es.reverse
  have htake := (v.respects_not_isStart start).takeWhile es.reverse
  rw [v.elements_reverse] at hdrop htake
  unfold spliceStart
  rw [← hdrop, ← htake]
  cases hd : es.reverse.dropWhile fun e => !Stack.isStart start e.2 with
  | nil =>
    rw [v.elements_bare, v.forest_trees]
    rfl
  | cons e inner =>
    have hnode : e.2.isNode = true := by
      have hstart := List.head_dropWhile_not (fun e : Element => !Stack.isStart start e.2)
        (w := by rw [hd]; exact List.cons_ne_nil _ _)
      have hstart : Stack.isStart start e.2 = true := by simpa [hd] using hstart
      simp only [Stack.isStart, Bool.and_eq_true] at hstart
      exact hstart.1.1
    have hcons : v.elements (e :: inner) = (e.1, v.tree e.2) :: v.elements inner := by
      rw [← List.singleton_append, elements_append, v.elements_singleton (v.keeps_node hnode)]
      rfl
    simp only [hcons, elements_append, v.elements_map_bare, v.elements_reverse,
      v.elements_labelledChildren]

theorem stack_root (start : Kind) (s : Stack) (trailing : List Tree) :
    v.tree (s.root start trailing) = (v.stack s).root start (v.forest trailing) := by
  have hbelow : v.forest s.treesBelow = (v.stack s).treesBelow := by
    rw [Stack.treesBelow, v.forest_flatMap_trees, List.map_reverse]
    rfl
  rw [root_eq, root_eq, v.tree_branchOf, v.state_zero, ← elements]
  simp only [elements_append, v.elements_bare, v.elements_spliceStart, hbelow]
  rfl

end Image
end Reparse.Parse
