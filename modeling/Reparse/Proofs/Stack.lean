import Reparse.Parse.Stack
import Reparse.Proofs.Frontier

/-! # Stack operations keep the leaves, and take entries from the top -/
namespace Reparse.Parse
open Reparse.Tree

/-- Every tree stores what follows from its children. -/
def AllConsistent (ts : List Tree) : Prop := ∀ t ∈ ts, t.Consistent

theorem AllConsistent.append {a b : List Tree} (ha : AllConsistent a) (hb : AllConsistent b) :
    AllConsistent (a ++ b) := by
  intro t ht
  rcases List.mem_append.1 ht with ht | ht
  · exact ha t ht
  · exact hb t ht

theorem AllConsistent.subset {a b : List Tree} (ha : AllConsistent a) (h : b ⊆ a) :
    AllConsistent b :=
  fun t ht => ha t (h ht)

theorem allConsistent_leaves (ls : List Leaf) : AllConsistent (ls.map .leaf) := by
  intro t ht
  obtain ⟨l, -, rfl⟩ := List.mem_map.1 ht
  exact .leaf l

theorem AllConsistent.errorNode {ts : List Tree} (h : AllConsistent ts) (state : Nat) :
    (Tree.errorNode ts state).Consistent := .node h

theorem AllConsistent.failedRoot {ts : List Tree} (h : AllConsistent ts) (kind : Kind) :
    (Tree.failedRoot kind ts).Consistent := .node h

private theorem AllConsistent.branchOf {elements : List Element}
    (h : AllConsistent (elements.map (·.2))) (kind : Kind) (state : Nat) :
    (branchOf kind elements state).Consistent := .node h

@[simp] theorem frontier_branchOf (kind : Kind) (elements : List Element) (state : Nat) :
    (branchOf kind elements state).frontier = forestFrontier (elements.map (·.2)) := rfl

@[simp] theorem frontier_errorNode (ts : List Tree) (state : Nat) :
    (Tree.errorNode ts state).frontier = forestFrontier ts := rfl

@[simp] theorem frontier_failedRoot (kind : Kind) (ts : List Tree) :
    (Tree.failedRoot kind ts).frontier = forestFrontier ts := rfl

/-- The trees of some elements. -/
def treesOf (elements : Array Element) : List Tree := elements.toList.map (·.2)

/-! ## Fields -/

theorem treesOf_label (l : Language) (elements : Array Element) (field : Option Field) :
    treesOf (label l elements field) = treesOf elements := by
  cases field with
  | none => rfl
  | some f =>
    simp only [treesOf, label, Array.toList_map, List.map_map]
    apply List.map_congr_left
    intro e _
    simp only [Function.comp]
    split <;> rfl

theorem toList_labelAll (l : Language) (entries : List Entry) (fields : List (Option Field)) :
    (labelAll l entries fields).toList = (entries.zip fields).flatMap fun p =>
      (label l p.1.elements p.2).toList := by
  have key (pairs : List (Entry × Option Field)) (all : Array Element) :
      (pairs.foldl (fun all p => all ++ label l p.1.elements p.2) all).toList =
        all.toList ++ pairs.flatMap fun p => (label l p.1.elements p.2).toList := by
    induction pairs generalizing all with
    | nil => simp
    | cons p rest ih =>
      rw [List.foldl_cons, ih]
      simp
  cases entries with
  | nil => rfl
  | cons e entries =>
    cases fields with
    | nil => rfl
    | cons f fields => exact key (entries.zip fields) (label l e.elements f)

/-- Fields do not move trees. -/
theorem treesOf_labelAll (l : Language) {entries : List Entry} {fields : List (Option Field)}
    (h : entries.length = fields.length) :
    treesOf (labelAll l entries fields) = entries.flatMap (·.trees) := by
  have hlabel (p : Entry × Option Field) :
      ((label l p.1.elements p.2).toList.map fun e => e.2) = p.1.trees :=
    treesOf_label l p.1.elements p.2
  have hzip : (entries.zip fields).map (·.1) = entries := List.map_fst_zip (Nat.le_of_eq h)
  calc treesOf (labelAll l entries fields) = (entries.zip fields).flatMap fun p => p.1.trees := by
        rw [treesOf, toList_labelAll, List.map_flatMap]
        simp only [hlabel]
    _ = entries.flatMap (·.trees) := by
        conv => rhs; rw [← hzip, List.flatMap_map]

/-! ## Reductions -/

theorem frontier_reduced (l : Language) (lhs : Kind) (elements : Array Element) (state : Nat) :
    forestFrontier (treesOf (reduced l lhs elements state)) =
      forestFrontier (treesOf elements) := by
  unfold reduced
  split
  · simp only [treesOf, Array.toList_push, Array.toList_takeWhile, List.map_append,
      List.map_cons, List.map_nil, forestFrontier_append, forestFrontier,
      frontier_branchOf, List.append_nil]
    rw [← forestFrontier_append, ← List.map_append, List.takeWhile_append_dropWhile]
  · rfl

private theorem allConsistent_reduced {l : Language} {elements : Array Element}
    (h : AllConsistent (treesOf elements)) (lhs : Kind) (state : Nat) :
    AllConsistent (treesOf (reduced l lhs elements state)) := by
  unfold reduced
  split
  · have htake : AllConsistent (treesOf (elements.takeWhile fun e => l.isTrivia e.2)) :=
      h.subset (List.map_subset _ (by simpa using (List.takeWhile_sublist _).subset))
    have hdrop : AllConsistent ((elements.toList.dropWhile fun e => l.isTrivia e.2).map (·.2)) :=
      h.subset (List.map_subset _ (List.dropWhile_sublist _).subset)
    intro t ht
    simp only [treesOf, Array.toList_push, List.map_append, List.mem_append,
      List.map_cons, List.map_nil, List.mem_singleton] at ht
    rcases ht with ht | rfl
    · exact htake t ht
    · exact hdrop.branchOf lhs state
  · exact h

namespace Stack

theorem trees_eq (s : Stack) : s.trees = s.entries.flatMap (·.trees) := rfl

theorem entries_push (s : Stack) (e : Entry) : (s.push e).entries = s.entries ++ [e] := by
  simp [entries, push]

@[simp] theorem trees_push (s : Stack) (e : Entry) : (s.push e).trees = s.trees ++ e.trees := by
  simp [trees_eq, entries_push]

@[simp] theorem trees_append (s : Stack) (t : Tree) : (s.append t).trees = s.trees ++ [t] := by
  simp [trees, entries, append, Entry.trees, Entry.pushTree]

@[simp] theorem trees_initial : initial.trees = [] := rfl

/-- Popping moves the last entries. -/
private theorem entries_popOnto (popped : List Entry) (n : Nat) (s : Stack) :
    (popOnto popped n s).2.entries ++ (popOnto popped n s).1 = s.entries ++ popped := by
  fun_induction popOnto popped n s with
  | case1 popped n top e below ih => simpa [entries] using ih
  | case2 popped n s h => rfl

private theorem length_popOnto {n : Nat} {s : Stack} (h : n ≤ s.below.length)
    (popped : List Entry) :
    (popOnto popped n s).1.length = popped.length + n := by
  fun_induction popOnto popped n s with
  | case1 popped n top e below ih =>
    rw [ih (by simpa using h), List.length_cons]
    omega
  | case2 m popped s hstop =>
    cases m with
    | zero => rfl
    | succ n =>
      obtain ⟨top, below⟩ := s
      cases below with
      | nil => simp at h
      | cons e below => exact absurd rfl (hstop n top e below rfl)

private theorem le_length_of_uncovered? {s : Stack} {n state : Nat}
    (h : s.uncovered? n = some state) : n ≤ s.below.length := by
  cases n with
  | zero => omega
  | succ n =>
    obtain ⟨e, he, -⟩ := Option.map_eq_some_iff.1 h
    exact (List.getElem?_eq_some_iff.1 he).1

/-- The stack that a reduction of `n` entries uncovers. -/
def uncovered (s : Stack) (n : Nat) : Stack := (popOnto [] n s).2

theorem exists_uncovered? {s : Stack} {n : Nat} (h : n ≤ s.below.length) :
    ∃ state, s.uncovered? n = some state := by
  cases n with
  | zero => exact ⟨_, rfl⟩
  | succ n => exact ⟨_, by rw [uncovered?, List.getElem?_eq_getElem h, Option.map_some]⟩

/-- The entries that a reduction of `n` entries takes off, top last. -/
def popped (s : Stack) (n : Nat) : List Entry := (popOnto [] n s).1

theorem entries_uncovered (s : Stack) (n : Nat) :
    (s.uncovered n).entries ++ s.popped n = s.entries := by
  have h := entries_popOnto [] n s
  rwa [List.append_nil] at h

theorem length_popped {s : Stack} {n state : Nat} (h : s.uncovered? n = some state) :
    (s.popped n).length = n := by
  have hlen := length_popOnto (le_length_of_uncovered? h) []
  rwa [List.length_nil, Nat.zero_add] at hlen

theorem trees_uncovered (s : Stack) (n : Nat) :
    (s.uncovered n).trees ++ (s.popped n).flatMap (·.trees) = s.trees := by
  rw [trees_eq, trees_eq, ← List.flatMap_append, entries_uncovered]

/-- The elements that a reduction takes off, with the fields of its production. -/
def handle (l : Language) (info : Table.ProductionInfo) (s : Stack) : Array Element :=
  labelAll l (s.popped info.fields.size) info.fields.toList

theorem reduce_eq (l : Language) (info : Table.ProductionInfo) (next : Nat) (s : Stack) :
    s.reduce l info next = (s.uncovered info.fields.size).push
      ⟨next, reduced l info.lhs (s.handle l info) (s.uncovered info.fields.size).top.state⟩ := rfl

theorem top_uncovered {s : Stack} {n state : Nat} (h : s.uncovered? n = some state) :
    (s.uncovered n).top.state = state := by
  have hentries := congrArg List.reverse (entries_uncovered s n)
  simp only [entries, List.reverse_append, List.reverse_reverse] at hentries
  have htop : (s.top :: s.below)[n]? = some (s.uncovered n).top := by
    have hlength : (s.popped n).reverse.length = n := by rw [List.length_reverse, length_popped h]
    rw [← hentries, List.getElem?_append_right (Nat.le_of_eq hlength), hlength, Nat.sub_self,
      List.getElem?_cons_zero]
  cases n with
  | zero =>
    simp only [List.getElem?_cons_zero, Option.some.injEq] at htop
    simpa [uncovered?, ← htop] using h
  | succ n =>
    rw [List.getElem?_cons_succ] at htop
    simpa [uncovered?, htop] using h

variable {l : Language} {info : Table.ProductionInfo} {s : Stack} {state : Nat}

theorem treesOf_handle (h : s.uncovered? info.fields.size = some state) :
    treesOf (s.handle l info) = (s.popped info.fields.size).flatMap (·.trees) :=
  treesOf_labelAll l (by rw [length_popped h, Array.length_toList])

theorem trees_reduce (next : Nat) :
    (s.reduce l info next).trees = (s.uncovered info.fields.size).trees ++
      treesOf (reduced l info.lhs (s.handle l info) (s.uncovered info.fields.size).top.state) := by
  rw [reduce_eq, trees_push]
  rfl

/-- A reduction keeps the leaves. -/
theorem frontier_reduce (h : s.uncovered? info.fields.size = some state) (next : Nat) :
    forestFrontier (s.reduce l info next).trees = forestFrontier s.trees := by
  rw [trees_reduce, forestFrontier_append, frontier_reduced, treesOf_handle h,
    ← forestFrontier_append, trees_uncovered]

theorem allConsistent_reduce (h : s.uncovered? info.fields.size = some state)
    (hs : AllConsistent s.trees) (next : Nat) :
    AllConsistent (s.reduce l info next).trees := by
  have hsplit := trees_uncovered s info.fields.size
  rw [trees_reduce]
  apply AllConsistent.append
  · exact hs.subset (by rw [← hsplit]; exact List.subset_append_left _ _)
  · apply allConsistent_reduced
    rw [treesOf_handle h]
    exact hs.subset (by rw [← hsplit]; exact List.subset_append_right _ _)

/-! ## Recovery and acceptance -/

theorem entries_unwindTo? {p : Nat → Bool} {s r : Stack} {popped : List Entry}
    (h : s.unwindTo? p = some (popped, r)) :
    r.entries ++ popped = s.entries := by
  simp only [unwindTo?] at h
  split at h
  · next resume below hd =>
    simp only [Option.some.injEq, Prod.mk.injEq] at h
    obtain ⟨rfl, rfl⟩ := h
    have hsplit : s.below.takeWhile (fun e => !p e.state) ++ resume :: below = s.below := by
      rw [← hd, List.takeWhile_append_dropWhile]
    simp only [entries]
    conv => rhs; rw [← hsplit]
    simp
  · contradiction

theorem trees_unwindTo? {p : Nat → Bool} {s r : Stack} {popped : List Entry}
    (h : s.unwindTo? p = some (popped, r)) :
    r.trees ++ popped.flatMap (·.trees) = s.trees := by
  rw [trees_eq, trees_eq, ← List.flatMap_append, entries_unwindTo? h]

/-- A tree without a field. -/
def bare (t : Tree) : Element := (none, t)

@[simp] theorem map_bare_snd (ts : List Tree) : (ts.map bare).map (·.2) = ts := by
  simp [bare, Function.comp_def]

/-- Whether acceptance replaces the tree by its children. -/
def isStart (start : Kind) (t : Tree) : Bool := t.isNode && t.kind == start && !t.isErrorNode

/-- The trees below the top entry. -/
def treesBelow (s : Stack) : List Tree := s.below.reverse.flatMap (·.trees)

theorem trees_eq_treesBelow (s : Stack) : s.trees = s.treesBelow ++ s.top.trees := by
  simp [trees, entries, treesBelow]

/-- The root of an accepted text has the children of the start node in place of that node, if there
is one. -/
theorem root_cases (s : Stack) (start : Kind) (trailing : List Tree) :
    (∃ before e after, s.top.elements.toList = before ++ e :: after ∧ isStart start e.2 = true ∧
      (∀ d ∈ after, isStart start d.2 = false) ∧ s.root start trailing =
        branchOf start ((s.treesBelow ++ before.map (·.2)).map bare ++ e.2.labelledChildren ++
          (after.map (·.2) ++ trailing).map bare) 0) ∨
    ((∀ d ∈ s.top.elements.toList, isStart start d.2 = false) ∧
      s.root start trailing = branchOf start ((s.trees ++ trailing).map bare) 0) := by
  have hsplit : s.top.elements.toList.reverse.takeWhile (fun e => !isStart start e.2) ++
      s.top.elements.toList.reverse.dropWhile (fun e => !isStart start e.2) =
        s.top.elements.toList.reverse :=
    List.takeWhile_append_dropWhile
  have hafter : ∀ d ∈ (s.top.elements.toList.reverse.takeWhile fun e => !isStart start e.2),
      isStart start d.2 = false := by
    intro d hd
    have hall :=
      List.all_eq_true.1 (List.all_takeWhile (p := fun e : Element => !isStart start e.2)) d hd
    simpa using hall
  cases hd : s.top.elements.toList.reverse.dropWhile (fun e => !isStart start e.2) with
  | nil =>
    right
    rw [hd, List.append_nil] at hsplit
    constructor
    · intro d hmem
      exact hafter d (by rw [hsplit]; simpa using hmem)
    · have hroot : s.root start trailing =
          branchOf start (s.treesBelow.map bare ++ s.top.trees.map bare ++ trailing.map bare)
          0 := by
        unfold root
        simp only [isStart] at hd
        simp only [hd]
        rfl
      rw [hroot, trees_eq_treesBelow]
      simp
  | cons e inner =>
    left
    refine ⟨inner.reverse, e,
      (s.top.elements.toList.reverse.takeWhile fun e => !isStart start e.2).reverse, ?_, ?_, ?_, ?_⟩
    · rw [← List.reverse_reverse s.top.elements.toList]
      conv => lhs; rw [← hsplit, hd]
      simp
    · have hfirst := List.head_dropWhile_not (fun e : Element => !isStart start e.2)
        (w := by rw [hd]; exact List.cons_ne_nil _ _)
      simpa [hd] using hfirst
    · intro d hmem
      exact hafter d (by simpa using hmem)
    · have hroot : s.root start trailing = branchOf start (s.treesBelow.map bare ++
          ((inner.reverse.map fun e => bare e.2) ++ e.2.labelledChildren ++
            (s.top.elements.toList.reverse.takeWhile fun e => !isStart start e.2).reverse.map
            fun e => bare e.2) ++
              trailing.map bare) 0 := by
        unfold root
        simp only [isStart] at hd
        simp only [hd]
        rfl
      rw [hroot]
      simp [Function.comp_def]

theorem frontier_root (s : Stack) (start : Kind) (trailing : List Tree) :
    (s.root start trailing).frontier = forestFrontier s.trees ++ forestFrontier trailing := by
  rcases root_cases s start trailing with
      ⟨before, e, after, helements, hstart, -, hroot⟩ | ⟨-, hroot⟩
  · have hnode : e.2.isNode = true := by
      simp only [isStart, Bool.and_eq_true] at hstart
      exact hstart.1.1
    have htop : s.top.trees = before.map (·.2) ++ e.2 :: after.map (·.2) := by
      simp [Entry.trees, helements]
    rw [hroot, frontier_branchOf, List.map_append, List.map_append, map_bare_snd, map_bare_snd,
      labelledChildren_snd, trees_eq_treesBelow, htop]
    simp [frontier_children _ hnode, forestFrontier]
  · rw [hroot, frontier_branchOf, map_bare_snd, forestFrontier_append]

theorem consistent_root {s : Stack} {trailing : List Tree} (hs : AllConsistent s.trees)
    (ht : AllConsistent trailing) (start : Kind) : (s.root start trailing).Consistent := by
  rcases root_cases s start trailing with ⟨before, e, after, helements, -, -, hroot⟩ | ⟨-, hroot⟩
  · have htrees : s.trees = s.treesBelow ++ (before.map (·.2) ++ e.2 :: after.map (·.2)) := by
      rw [trees_eq_treesBelow]
      simp [Entry.trees, helements]
    rw [htrees] at hs
    have hchildren : AllConsistent e.2.children := (hs e.2 (by simp)).children
    rw [hroot]
    apply AllConsistent.branchOf
    rw [List.map_append, List.map_append, map_bare_snd, map_bare_snd, labelledChildren_snd]
    refine ((hs.subset ?_).append hchildren).append ((hs.subset ?_).append ht)
    · intro t h
      simp only [List.mem_append, List.mem_cons] at h ⊢
      rcases h with h | h
      · exact .inl h
      · exact .inr (.inl h)
    · intro t h
      simp only [List.mem_append, List.mem_cons]
      exact .inr (.inr (.inr h))
  · rw [hroot]
    apply AllConsistent.branchOf
    rw [map_bare_snd]
    exact hs.append ht

end Stack
end Reparse.Parse
