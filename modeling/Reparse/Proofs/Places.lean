import Reparse.Proofs.Relexing
import Reparse.Tree.Cursor

/-! # Walks over a tree agree on its places

Iterators, lookups and the search for a node each add up lengths on their own way through a tree,
and saturate. They are compared with the places that the recursion over the tree gives, where each
child stands behind the leaves before it. -/
namespace Reparse
open Text

namespace Text.Range

private theorem encloses_iff {r other : Range} :
    r.encloses other = true ↔ r.start ≤ other.start ∧ other.stop ≤ r.stop := by
  rw [Range.encloses, Bool.and_eq_true, decide_eq_true_eq, decide_eq_true_eq]

/-- Ranges that follow one another without a gap from the start of a range to its end. -/
def Tiles (r : Range) : List Range → Prop
  | [] => r.start = r.stop
  | p :: rest => p.start = r.start ∧ p.start ≤ p.stop ∧ Tiles ⟨p.stop, r.stop⟩ rest

private theorem Tiles.append {r : Range} {ps qs : List Range} {middle : Nat}
    (hp : Tiles ⟨r.start, middle⟩ ps) (hq : Tiles ⟨middle, r.stop⟩ qs) : Tiles r (ps ++ qs) := by
  induction ps generalizing r with
  | nil =>
    have hstart : r.start = middle := hp
    rw [← hstart] at hq
    exact hq
  | cons p rest ih =>
    obtain ⟨hstart, hle, hrest⟩ := hp
    exact ⟨hstart, hle, ih hrest hq⟩

end Text.Range

namespace Tree

/-! ## What nodes store -/

mutual
/-- Whether the tree has an error node, or a leaf that is an error. -/
def flawed : Tree → Bool
  | .leaf l => l.isError
  | .node info children => info.isError || anyFlawed children

def anyFlawed : List Tree → Bool
  | [] => false
  | t :: rest => t.flawed || anyFlawed rest
end

variable {t : Tree}

private theorem anyFlawed_eq {ts : List Tree} (h : ∀ t ∈ ts, t.hasError = t.flawed) :
    anyFlawed ts = ts.any hasError := by
  induction ts with
  | nil => rfl
  | cons t rest ih =>
    rw [List.any_cons, anyFlawed, h t List.mem_cons_self,
      ih fun u hu => h u (List.mem_cons_of_mem _ hu)]

private theorem Consistent.hasError_eq (h : t.Consistent) : t.hasError = t.flawed := by
  induction h with
  | leaf l => rfl
  | @node kind children fields state isError below ih =>
    rw [flawed, isError_infoOf, anyFlawed_eq ih]
    exact hasError_infoOf

theorem Consistent.length_exact (h : t.Consistent) (hle : totalLength t.frontier ≤ maxSize) :
    t.length = totalLength t.frontier := by
  cases t with
  | leaf l => simp [length, frontier]
  | node info children => rw [h.length_eq rfl, clamp_of_le hle]

private theorem length_frontier_le (t : Tree) : t.frontier.length ≤ t.weight := by
  induction t using Tree.induction with
  | leaf l => exact Nat.le_refl 1
  | node info children ih =>
    have hforest (ts : List Tree) (hts : ∀ t ∈ ts, t.frontier.length ≤ t.weight) :
        (forestFrontier ts).length ≤ forestWeight ts := by
      induction ts with
      | nil => exact Nat.le_refl 0
      | cons t rest ih =>
        rw [forestFrontier, List.length_append, forestWeight]
        exact Nat.add_le_add (hts t List.mem_cons_self)
          (ih fun u hu => hts u (List.mem_cons_of_mem _ hu))
    rw [frontier, weight]
    exact Nat.le_trans (hforest children ih) (Nat.le_add_left _ _)

namespace Cursor

/-! ## Places -/

/-- The places of some children of `parent`, from an index and an offset on. A child stands behind
the leaves of those before it. -/
def placesFrom (parent : Cursor) (index offset : Nat) : List Tree → List Cursor
  | [] => []
  | t :: rest => .child parent index offset t ::
      placesFrom parent (index + 1) (offset + totalLength t.frontier) rest

/-- The places of the children. -/
def inner (c : Cursor) : List Cursor := placesFrom c 0 c.offset c.tree.children

mutual
/-- The place of a tree and all places below it, parents before their children. -/
def outlineAt (c : Cursor) : Tree → List Cursor
  | .leaf _ => [c]
  | .node _ children => c :: forestOutline c 0 c.offset children

def forestOutline (parent : Cursor) (index offset : Nat) : List Tree → List Cursor
  | [] => []
  | t :: rest => outlineAt (.child parent index offset t) t ++
      forestOutline parent (index + 1) (offset + totalLength t.frontier) rest
end

def outline (c : Cursor) : List Cursor := outlineAt c c.tree

variable {c d m n parent : Cursor} {index offset k : Nat} {ts : List Tree}

@[simp] theorem tree_child : (Cursor.child parent index offset t).tree = t := rfl
@[simp] theorem offset_child : (Cursor.child parent index offset t).offset = offset := rfl
@[simp] theorem index_child : (Cursor.child parent index offset t).index = index := rfl

private theorem forestOutline_eq (parent : Cursor) (index offset : Nat) (ts : List Tree) :
    forestOutline parent index offset ts = (placesFrom parent index offset ts).flatMap outline := by
  induction ts generalizing index offset with
  | nil => rfl
  | cons t rest ih =>
    rw [forestOutline, placesFrom, List.flatMap_cons, ih]
    rfl

theorem outline_eq (c : Cursor) : c.outline = c :: c.inner.flatMap outline := by
  unfold outline inner
  cases c.tree with
  | leaf l => rfl
  | node info children => rw [outlineAt, forestOutline_eq]; rfl

private theorem mem_outline_self (c : Cursor) : c ∈ c.outline := by
  rw [outline_eq]
  exact List.mem_cons_self

theorem mem_outline_iff : m ∈ c.outline ↔ m = c ∨ ∃ d ∈ c.inner, m ∈ d.outline := by
  rw [outline_eq, List.mem_cons, List.mem_flatMap]

private theorem tree_mem_of_mem_placesFrom (h : d ∈ placesFrom parent index offset ts) :
    d.tree ∈ ts := by
  induction ts generalizing index offset with
  | nil => contradiction
  | cons t rest ih =>
    rcases List.mem_cons.1 h with rfl | h
    · exact List.mem_cons_self
    · exact List.mem_cons_of_mem _ (ih h)

/-- What holds of a place if it holds of all places of its children holds everywhere. -/
theorem induction {P : Cursor → Prop} (step : ∀ c, (∀ d ∈ c.inner, P d) → P c) (c : Cursor) :
    P c := by
  have key (t : Tree) : ∀ c : Cursor, c.tree = t → P c := by
    induction t using Tree.induction with
    | leaf l =>
      intro c hc
      refine step c fun d hd => ?_
      have hd := tree_mem_of_mem_placesFrom hd
      rw [hc] at hd
      contradiction
    | node info children ih =>
      intro c hc
      refine step c fun d hd => ?_
      have hd := tree_mem_of_mem_placesFrom hd
      rw [hc] at hd
      exact ih d.tree hd d rfl
  exact key c.tree c rfl

/-- What goes over from places to those of their children holds everywhere below. -/
theorem of_mem_outline {P : Cursor → Prop} (step : ∀ c, P c → ∀ d ∈ c.inner, P d) (c : Cursor)
    (hc : P c) :
    ∀ m ∈ c.outline, P m := by
  induction c using Cursor.induction with
  | step c ih =>
    intro m hm
    rcases mem_outline_iff.1 hm with rfl | ⟨d, hd, hm⟩
    · exact hc
    · exact ih d hd (step c hc d hd) m hm

private theorem inner_subset_outline (hm : m ∈ c.outline) : ∀ d ∈ m.inner, d ∈ c.outline := by
  induction c using Cursor.induction with
  | step c ih =>
    intro d hd
    rcases mem_outline_iff.1 hm with rfl | ⟨e, he, hm⟩
    · exact mem_outline_iff.2 (.inr ⟨d, hd, mem_outline_self d⟩)
    · exact mem_outline_iff.2 (.inr ⟨e, he, ih e he hm d hd⟩)

theorem getElem?_placesFrom (parent : Cursor) (index offset : Nat) (ts : List Tree) (k : Nat) :
    (placesFrom parent index offset ts)[k]? = ts[k]?.map fun t =>
      .child parent (index + k) (offset + totalLength (forestFrontier (ts.take k))) t := by
  induction ts generalizing index offset k with
  | nil => rfl
  | cons t rest ih =>
    cases k with
    | zero => rfl
    | succ k => simp [placesFrom, ih, forestFrontier, Nat.add_assoc, Nat.add_comm 1]

/-! ## Sizes that are not cut off -/

/-- Nothing at the place or below it reaches a limit. -/
structure Fits (c : Cursor) : Prop where
  consistent : c.tree.Consistent
  index : c.index ≤ maxSize
  length : c.offset + totalLength c.tree.frontier ≤ maxSize
  weight : c.tree.weight ≤ maxSize

structure Siblings.Fits (s : Siblings) : Prop where
  consistent : ∀ t ∈ s.rest, t.Consistent
  length : s.offset + totalLength (forestFrontier s.rest) ≤ maxSize
  weight : s.index + forestWeight s.rest ≤ maxSize

theorem Fits.length_eq (h : c.Fits) : c.tree.length = totalLength c.tree.frontier :=
  h.consistent.length_exact (Nat.le_trans (Nat.le_add_left _ _) h.length)

private theorem forestFrontier_children (t : Tree) :
    totalLength (forestFrontier t.children) ≤ totalLength t.frontier := by
  cases t with
  | leaf l => exact Nat.zero_le _
  | node info children => exact Nat.le_refl _

theorem Fits.siblings (h : c.Fits) : c.siblings.Fits where
  consistent := h.consistent.children
  length := Nat.le_trans (Nat.add_le_add_left (forestFrontier_children c.tree) _) h.length
  weight := by
    rw [Cursor.siblings, Nat.zero_add]
    exact Nat.le_trans (Nat.le_of_lt (forestWeight_children c.tree)) h.weight

namespace Siblings.Fits

variable {rest : List Tree} (h : Siblings.Fits ⟨parent, index, offset, t :: rest⟩)
include h

theorem head : Cursor.Fits (.child parent index offset t) := by
  have hlength := h.length
  have hweight := h.weight
  simp only [forestFrontier, totalLength_append] at hlength
  simp only [forestWeight] at hweight
  refine ⟨h.consistent t List.mem_cons_self, ?_, ?_, ?_⟩ <;>
    simp only [tree_child, offset_child, index_child] <;> omega

theorem next : Siblings.Fits ⟨parent, index + 1, offset + totalLength t.frontier, rest⟩ := by
  have hlength := h.length
  have hweight := h.weight
  have hpos := weight_pos t
  simp only [forestFrontier, totalLength_append] at hlength
  simp only [forestWeight] at hweight
  exact ⟨fun u hu => h.consistent u (List.mem_cons_of_mem _ hu), by simp only; omega,
    by simp only; omega⟩

private theorem plus_length : plus offset t.length = offset + totalLength t.frontier := by
  have hlength : t.length = totalLength t.frontier := h.head.length_eq
  rw [hlength]
  exact plus_of_le h.head.length

private theorem childPlace_eq :
    parent.childPlace index offset t = .child parent index offset t := by
  have hindex : clamp index = index := clamp_of_le h.head.index
  rw [childPlace, hindex]

end Siblings.Fits

private theorem Siblings.Fits.places {s : Siblings} (h : s.Fits) :
    ∀ d ∈ placesFrom s.parent s.index s.offset s.rest, d.Fits := by
  obtain ⟨parent, index, offset, ts⟩ := s
  induction ts generalizing index offset with
  | nil => nofun
  | cons t rest ih =>
    intro d hd
    rcases List.mem_cons.1 hd with rfl | hd
    · exact h.head
    · exact ih _ _ h.next d hd

theorem Fits.inner (h : c.Fits) : ∀ d ∈ c.inner, d.Fits := h.siblings.places

private theorem Fits.outline (h : c.Fits) : ∀ m ∈ c.outline, m.Fits :=
  of_mem_outline (fun _ h => h.inner) c h

/-! ## Walks -/

private theorem childrenFrom_eq (done : List Cursor)
    (h : Siblings.Fits ⟨parent, index, offset, ts⟩) :
    childrenFrom parent done index offset ts =
      done.reverse ++ placesFrom parent index offset ts := by
  induction ts generalizing done index offset with
  | nil => exact (List.append_nil _).symm
  | cons t rest ih =>
    rw [childrenFrom, h.plus_length, h.childPlace_eq, ih _ h.next, placesFrom, List.reverse_cons,
      List.append_assoc, List.singleton_append]

theorem Fits.children_eq (h : c.Fits) : c.children = c.inner := childrenFrom_eq [] h.siblings

private theorem foldl_plus_length (hts : ∀ t ∈ ts, t.Consistent)
    (hle : offset + totalLength (forestFrontier ts) ≤ maxSize) :
    ts.foldl (fun offset t => plus offset t.length) offset =
      offset + totalLength (forestFrontier ts) := by
  have hsum := foldl_plus ts length (fun t => totalLength t.frontier) offset fun t ht =>
    (hts t ht).clamp_length
  rwa [clamp_of_le (by omega), ← totalLength_forestFrontier, clamp_of_le hle] at hsum

/-- A child that is looked up by its index is where the iteration over all children finds it. -/
theorem Fits.childAt?_eq (h : c.Fits) (k : Nat) : c.childAt? k = c.inner[k]? := by
  have hplace : c.inner[k]? = _ := getElem?_placesFrom c 0 c.offset c.tree.children k
  rw [hplace, childAt?]
  rw [Nat.zero_add] at hplace ⊢
  cases ht : c.tree.children[k]? with
  | none => rfl
  | some t =>
    rw [ht, Option.map_some] at hplace
    have hchild := h.inner _ (List.mem_of_getElem? hplace)
    have hbefore : ∀ t ∈ c.tree.children.take k, t.Consistent := fun t ht =>
      h.consistent.children t (List.mem_of_mem_take ht)
    have hindex : clamp k = k := clamp_of_le hchild.index
    simp only [Option.map_some]
    rw [foldl_plus_length hbefore (Nat.le_trans (Nat.le_add_right _ _) hchild.length),
      childPlace, hindex]

theorem outline_leaf (h : c.tree.isNode = false) : c.outline = [c] := by
  rw [outline_eq, inner]
  cases hc : c.tree with
  | leaf l => rfl
  | node info children =>
    rw [hc] at h
    contradiction

private theorem flatMap_filter_isNode (cs : List Cursor) :
    (cs.filter (·.tree.isNode)).flatMap (fun c => c.outline.filter (·.tree.isNode)) =
      cs.flatMap fun c => c.outline.filter (·.tree.isNode) := by
  induction cs with
  | nil => rfl
  | cons c rest ih =>
    rw [List.filter_cons, List.flatMap_cons]
    split
    case isTrue => rw [List.flatMap_cons, ih]
    case isFalse h => simp [ih, outline_leaf (eq_false_of_ne_true h), h]

/-- What is found and the nodes that the stack still leads to are the same at every step. -/
theorem descendantsFrom_eq {stack : List Cursor} {found : Array Cursor}
    (h : ∀ c ∈ stack, c.Fits ∧ c.tree.isNode = true) :
    (descendantsFrom stack found).toList =
      found.toList ++ stack.flatMap fun c => c.outline.filter (·.tree.isNode) := by
  fun_induction descendantsFrom stack found with
  | case1 found => simp
  | case2 c stack found ih =>
    obtain ⟨hfits, hnode⟩ := h c List.mem_cons_self
    have hnodes : c.childNodes = c.inner.filter (·.tree.isNode) := by
      rw [childNodes, hfits.children_eq]
    have hstack : ∀ d ∈ c.childNodes ++ stack, d.Fits ∧ d.tree.isNode = true := by
      intro d hd
      rcases List.mem_append.1 hd with hd | hd
      · rw [hnodes] at hd
        obtain ⟨hd, hnode⟩ := List.mem_filter.1 hd
        exact ⟨hfits.inner d hd, hnode⟩
      · exact h d (List.mem_cons_of_mem _ hd)
    -- child nodes alone are on the stack, but the outline of a child that is a leaf holds no nodes
    have houtline : c.outline.filter (·.tree.isNode) = c :: c.inner.flatMap fun d =>
        d.outline.filter (·.tree.isNode) := by
      rw [outline_eq, List.filter_cons, if_pos hnode, List.filter_flatMap]
    rw [ih hstack, hnodes, List.flatMap_append, flatMap_filter_isNode, List.flatMap_cons, houtline]
    simp

/-- What is found and the leaves that the stack still leads to are the same at every step. -/
theorem tokensFrom_eq {stack : List Siblings} {found : Array Cursor} (h : ∀ s ∈ stack, s.Fits) :
    (tokensFrom stack found).toList = found.toList ++ stack.flatMap fun s =>
      (forestOutline s.parent s.index s.offset s.rest).filter (!·.tree.isNode) := by
  fun_induction tokensFrom stack found with
  | case1 found => simp
  | case2 parent index offset stack found ih =>
    rw [ih fun s hs => h s (List.mem_cons_of_mem _ hs)]
    rfl
  | case3 parent index offset l rest stack found ih =>
    have htop := h _ List.mem_cons_self
    have hplus : plus offset l.length = _ := htop.plus_length
    rw [hplus] at ih
    rw [hplus, ih, htop.childPlace_eq]
    · simp [forestOutline, outlineAt, tree, isNode]
    · intro s hs
      rcases List.mem_cons.1 hs with rfl | hs
      · exact htop.next
      · exact h s (List.mem_cons_of_mem _ hs)
  | case4 parent index offset info children rest stack found ih =>
    have htop := h _ List.mem_cons_self
    have hplus : plus offset info.length = _ := htop.plus_length
    rw [hplus, htop.childPlace_eq] at ih
    rw [hplus, htop.childPlace_eq, ih]
    · simp [forestOutline, outlineAt, siblings, tree, isNode, Tree.children]
    · intro s hs
      rcases List.mem_cons.1 hs with rfl | hs
      · exact htop.head.siblings
      · rcases List.mem_cons.1 hs with rfl | hs
        · exact htop.next
        · exact h s (List.mem_cons_of_mem _ hs)

/-- The places of the leaves. -/
def leaves (c : Cursor) : List Cursor := c.outline.filter (!·.tree.isNode)

private theorem Fits.descendants_eq (h : c.Fits) (hnode : c.tree.isNode = true) :
    c.descendants.toList = c.outline.filter (·.tree.isNode) := by
  have hstack : ∀ d ∈ [c], d.Fits ∧ d.tree.isNode = true := by simpa using ⟨h, hnode⟩
  rw [descendants, descendantsFrom_eq hstack]
  simp

theorem leaves_eq (hnode : c.tree.isNode = true) : c.leaves = c.inner.flatMap leaves := by
  rw [leaves, outline_eq, List.filter_cons, hnode, if_neg (by simp), List.filter_flatMap]
  rfl

private theorem leaves_leaf (hleaf : c.tree.isNode = false) : c.leaves = [c] := by
  rw [leaves, outline_leaf hleaf, List.filter_cons, hleaf]
  rfl

private theorem Fits.tokens_eq (h : c.Fits) (hnode : c.tree.isNode = true) :
    c.tokens.toList = c.leaves := by
  have hstack : ∀ s ∈ [c.siblings], s.Fits := by simpa using h.siblings
  rw [tokens, tokensFrom_eq hstack, leaves_eq hnode, Cursor.inner]
  simp only [List.flatMap_singleton, forestOutline_eq, List.filter_flatMap, List.nil_append]
  rfl

/-! ## Leaves -/

private theorem map_tree_leaves (c : Cursor) : c.leaves.map tree = c.tree.frontier.map .leaf := by
  induction c using Cursor.induction with
  | step c ih =>
    have below (index offset : Nat) (ts : List Tree)
        (hts : ∀ d ∈ placesFrom c index offset ts, d.leaves.map tree = d.tree.frontier.map .leaf) :
        ((placesFrom c index offset ts).flatMap leaves).map tree =
          (forestFrontier ts).map .leaf := by
      induction ts generalizing index offset with
      | nil => rfl
      | cons t rest ih =>
        rw [placesFrom, List.flatMap_cons, List.map_append, hts _ List.mem_cons_self,
          ih _ _ fun d hd => hts d (List.mem_cons_of_mem _ hd), forestFrontier, List.map_append]
        rfl
    cases hnode : c.tree.isNode with
    | true => rw [leaves_eq hnode, inner, below 0 c.offset _ ih, frontier_children _ hnode]
    | false =>
      rw [leaves_leaf hnode]
      cases hc : c.tree with
      | leaf l => simp [hc, frontier]
      | node info children =>
        rw [hc] at hnode
        contradiction

theorem Fits.range_eq (h : c.Fits) :
    c.range = ⟨c.offset, c.offset + totalLength c.tree.frontier⟩ := by
  rw [range, h.length_eq, Range.ofLength]

private theorem Fits.tiles (h : c.Fits) : Range.Tiles c.range (c.leaves.map range) := by
  induction c using Cursor.induction with
  | step c ih =>
    have below (index offset : Nat) (ts : List Tree)
        (hts : ∀ d ∈ placesFrom c index offset ts, d.Fits ∧
        Range.Tiles d.range (d.leaves.map range)) :
        Range.Tiles ⟨offset, offset + totalLength (forestFrontier ts)⟩
        (((placesFrom c index offset ts).flatMap leaves).map range) := by
      induction ts generalizing index offset with
      | nil => rfl
      | cons t rest ih =>
        obtain ⟨hfits, htiles⟩ := hts _ List.mem_cons_self
        have hrest := ih (index + 1) (offset + totalLength t.frontier) fun d hd =>
          hts d (List.mem_cons_of_mem _ hd)
        rw [hfits.range_eq] at htiles
        rw [placesFrom, List.flatMap_cons, List.map_append, forestFrontier,
          totalLength_append, ← Nat.add_assoc]
        exact htiles.append hrest
    cases hnode : c.tree.isNode with
    | true =>
      rw [leaves_eq hnode, h.range_eq, ← frontier_children _ hnode]
      exact below 0 c.offset _ fun d hd => ⟨h.inner d hd, ih d hd (h.inner d hd)⟩
    | false =>
      rw [leaves_leaf hnode]
      exact ⟨rfl, Nat.le_add_right _ _, rfl⟩

/-! ## Children -/

theorem mem_inner_iff : d ∈ c.inner ↔ ∃ k t, c.tree.children[k]? = some t ∧
    d = .child c k (c.offset + totalLength (forestFrontier (c.tree.children.take k))) t := by
  have hplace (k : Nat) : c.inner[k]? = _ := getElem?_placesFrom c 0 c.offset c.tree.children k
  simp only [List.mem_iff_getElem?, hplace, Option.map_eq_some_iff, Nat.zero_add, eq_comm (b := d)]

/-- The leaves of the root that stand before the place. -/
def earlier : Cursor → List Leaf
  | .root _ => []
  | .child parent index _ _ => parent.earlier ++ forestFrontier (parent.tree.children.take index)

/-- The place starts where the leaves before it end. -/
structure Placed (root : Tree) (m : Cursor) : Prop where
  offset_eq : m.offset = totalLength m.earlier
  split : ∃ later, root.frontier = m.earlier ++ m.tree.frontier ++ later

private theorem Placed.inner {root : Tree} (h : Placed root m) (hd : d ∈ m.inner) :
    Placed root d := by
  obtain ⟨k, t, ht, rfl⟩ := mem_inner_iff.1 hd
  obtain ⟨hoffset, later, hsplit⟩ := h
  have hnode : m.tree.isNode = true := by
    cases hm : m.tree with
    | leaf l => simp [hm, Tree.children] at ht
    | node info children => rfl
  obtain ⟨hk, rfl⟩ := List.getElem?_eq_some_iff.1 ht
  have hchildren : m.tree.frontier = forestFrontier (m.tree.children.take k) ++
      (m.tree.children[k].frontier ++ forestFrontier (m.tree.children.drop (k + 1))) := by
    rw [← forestFrontier, ← List.drop_eq_getElem_cons hk, ← forestFrontier_append,
      List.take_append_drop, frontier_children _ hnode]
  refine ⟨?_, forestFrontier (m.tree.children.drop (k + 1)) ++ later, ?_⟩
  · rw [earlier, totalLength_append, ← hoffset]
    rfl
  · rw [hsplit, hchildren, earlier]
    simp only [tree, List.append_assoc]

private theorem placed_of_mem_outline (root : Tree) :
    ∀ m ∈ (Cursor.root root).outline, Placed root m :=
  of_mem_outline (fun _ h _ hd => h.inner hd) _ ⟨rfl, [], by simp [earlier, tree]⟩

/-- All ways to the child of `n` at the index `k` agree. -/
structure Linked (root : Tree) (n : Cursor) (k : Nat) : Prop where
  lookup : n.childAt? k = n.children[k]?
  trees : (n.childAt? k).map tree = n.tree.children[k]?
  places : ∀ child ∈ n.childAt? k, child ∈ (Cursor.root root).outline ∧
    child.parent? = some n ∧ child.index = k
  next : ∀ child ∈ n.childAt? k, child.nextSibling? = n.childAt? (k + 1)
  prev : ∀ child ∈ n.childAt? k, child.prevSibling? = if k = 0 then none else n.childAt? (k - 1)

private theorem Fits.linked {root : Tree} (h : n.Fits) (hn : n ∈ (Cursor.root root).outline)
    (k : Nat) : Linked root n k := by
  have hplace : n.childAt? k = _ :=
    (h.childAt?_eq k).trans (getElem?_placesFrom n 0 n.offset n.tree.children k)
  have links : ∀ child ∈ n.childAt? k, child.parent? = some n ∧ child.index = k := by
    rw [hplace, Nat.zero_add]
    rintro child hchild
    obtain ⟨t, -, rfl⟩ := Option.map_eq_some_iff.1 hchild
    exact ⟨rfl, rfl⟩
  refine ⟨?_, ?_, fun child hchild => ⟨?_, links child hchild⟩, fun child hchild => ?_,
    fun child hchild => ?_⟩
  · rw [h.childAt?_eq, h.children_eq]
  · rw [hplace, Option.map_map]
    exact Option.map_id'
  · rw [h.childAt?_eq] at hchild
    exact inner_subset_outline hn child (List.mem_of_getElem? hchild)
  · obtain ⟨hparent, hindex⟩ := links child hchild
    rw [nextSibling?, hparent, hindex]
    rfl
  · obtain ⟨hparent, hindex⟩ := links child hchild
    rw [prevSibling?, hparent, hindex]
    rfl

/-! ## Covering nodes -/

/-- Every place below stands inside the range of the place. -/
theorem within_of_mem_placesFrom (h : d ∈ placesFrom parent index offset ts) :
    offset ≤ d.offset ∧ d.offset + totalLength d.tree.frontier ≤
      offset + totalLength (forestFrontier ts) := by
  induction ts generalizing index offset with
  | nil => contradiction
  | cons t rest ih =>
    rw [forestFrontier, totalLength_append]
    rcases List.mem_cons.1 h with rfl | h
    · simp only [offset_child, tree_child]
      omega
    · have hrest := ih h
      omega

private theorem within_of_mem_outline (h : m ∈ c.outline) :
    c.offset ≤ m.offset ∧ m.offset + totalLength m.tree.frontier ≤
      c.offset + totalLength c.tree.frontier := by
  refine of_mem_outline (P := fun m => c.offset ≤ m.offset ∧
    m.offset + totalLength m.tree.frontier ≤
      c.offset + totalLength c.tree.frontier) ?_ c (by simp) m h
  intro m hm d hd
  have hin := within_of_mem_placesFrom hd
  have hle := forestFrontier_children m.tree
  omega

/-- Children that hold a byte in common are the same. -/
private theorem eq_of_encloses {r : Range} (hr : r.start < r.stop)
    (hfits : ∀ d ∈ placesFrom parent index offset ts, d.Fits)
    (hm : m ∈ placesFrom parent index offset ts) (hn : n ∈ placesFrom parent index offset ts)
    (hmr : m.range.encloses r = true) (hnr : n.range.encloses r = true) : m = n := by
  induction ts generalizing index offset with
  | nil => contradiction
  | cons t rest ih =>
    have hbelow (d : Cursor) (hd : d ∈
        placesFrom parent (index + 1) (offset + totalLength t.frontier) rest)
        (hdr : d.range.encloses r = true) :
        ¬ (Cursor.child parent index offset t).range.encloses r = true := by
      have hoffset := (within_of_mem_placesFrom hd).1
      rw [(hfits _ (List.mem_cons_of_mem _ hd)).range_eq, Range.encloses_iff] at hdr
      rw [(hfits _ List.mem_cons_self).range_eq, Range.encloses_iff]
      simp only [offset_child, tree_child] at hdr ⊢
      omega
    rcases List.mem_cons.1 hm with rfl | hm
    · rcases List.mem_cons.1 hn with rfl | hn
      · rfl
      · exact absurd hmr (hbelow n hn hnr)
    · rcases List.mem_cons.1 hn with rfl | hn
      · exact absurd hnr (hbelow m hm hmr)
      · exact ih (fun d hd => hfits d (List.mem_cons_of_mem _ hd)) hm hn

private theorem mem_ancestors_self (c : Cursor) : c ∈ c.ancestors := by
  cases c <;> exact List.mem_cons_self

private theorem ancestors_subset (h : c ∈ m.ancestors) : ∀ a ∈ c.ancestors, a ∈ m.ancestors := by
  induction m with
  | root t =>
    obtain rfl := List.mem_singleton.1 h
    exact fun a ha => ha
  | child parent index offset t ih =>
    intro a ha
    rcases List.mem_cons.1 h with rfl | h
    · exact ha
    · exact List.mem_cons_of_mem _ (ih h a ha)

private theorem mem_ancestors_of_mem_outline (h : m ∈ c.outline) : c ∈ m.ancestors := by
  refine of_mem_outline (P := fun m => c ∈ m.ancestors) ?_ c (mem_ancestors_self c) m h
  intro m hm d hd
  obtain ⟨k, t, -, rfl⟩ := mem_inner_iff.1 hd
  exact List.mem_cons_of_mem _ hm

/-- `n` is the smallest node that holds the range. -/
structure Covers (c : Cursor) (r : Range) (n : Cursor) : Prop where
  mem : n ∈ c.outline
  node : n.tree.isNode = true
  encloses : n.range.encloses r = true
  least : ∀ m ∈ c.outline, m.tree.isNode = true → m.range.encloses r = true → m ∈ n.ancestors

/-- A node that holds the range stands at the place or below a child node that holds it. -/
private theorem Fits.of_encloses {r : Range} (hr : r.start < r.stop) (h : c.Fits)
    (hm : m ∈ c.outline) (hnode : m.tree.isNode = true) (hmr : m.range.encloses r = true) :
    m = c ∨ ∃ d ∈ c.childNodes, (d.range.encloses r && !d.range.isEmpty) =
      true ∧ m ∈ d.outline := by
  refine (mem_outline_iff.1 hm).imp id fun ⟨d, hd, hm⟩ => ?_
  have hdfits := h.inner d hd
  have hdnode : d.tree.isNode = true := by
    cases hleaf : d.tree.isNode with
    | true => rfl
    | false =>
      rw [outline_leaf hleaf, List.mem_singleton] at hm
      rw [hm, hleaf] at hnode
      contradiction
  have hwithin := within_of_mem_outline hm
  have hmfits := hdfits.outline m hm
  rw [hmfits.range_eq, Range.encloses_iff] at hmr
  have hdr : d.range.encloses r = true := by
    rw [hdfits.range_eq, Range.encloses_iff]
    simp only at hmr ⊢
    omega
  have hpos : d.range.isEmpty = false := by
    rw [hdfits.range_eq, Range.isEmpty, beq_eq_false_iff_ne]
    simp only at hmr ⊢
    omega
  refine ⟨d, ?_, by rw [hdr, hpos]; rfl, hm⟩
  rw [childNodes, h.children_eq]
  exact List.mem_filter.2 ⟨hd, hdnode⟩

private theorem Fits.covers {r : Range} (hr : r.start < r.stop) (h : c.Fits)
    (hnode : c.tree.isNode = true) (hin : c.range.encloses r = true) :
    Covers c r (c.covering r) := by
  induction c using Cursor.induction with
  | step c ih =>
    rw [covering]
    split
    case h_1 d hfind =>
      have hchild := List.mem_of_find?_eq_some hfind
      have hholds := List.find?_some hfind
      rw [childNodes, h.children_eq] at hchild
      obtain ⟨hd, hdnode⟩ := List.mem_filter.1 hchild
      rw [Bool.and_eq_true] at hholds
      have hcovers := ih d hd (h.inner d hd) hdnode hholds.1
      have hup : c ∈ d.ancestors := by
        obtain ⟨k, t, -, rfl⟩ := mem_inner_iff.1 hd
        exact List.mem_cons_of_mem _ (mem_ancestors_self c)
      refine ⟨mem_outline_iff.2 (.inr ⟨d, hd, hcovers.mem⟩), hcovers.node, hcovers.encloses,
        fun m hm hmnode hmr => ?_⟩
      -- no other child than `d` holds the range, so all nodes below `c` that do are below `d`
      obtain rfl | ⟨e, he, heholds, hme⟩ := h.of_encloses hr hm hmnode hmr
      · exact ancestors_subset (mem_ancestors_of_mem_outline hcovers.mem) m hup
      · rw [childNodes, h.children_eq] at he
        rw [Bool.and_eq_true] at heholds
        obtain rfl := eq_of_encloses hr h.inner hd (List.mem_filter.1 he).1 hholds.1 heholds.1
        exact hcovers.least m hme hmnode hmr
    case h_2 hfind =>
      refine ⟨mem_outline_self c, hnode, hin, fun m hm hmnode hmr => ?_⟩
      obtain rfl | ⟨d, hd, hholds, -⟩ := h.of_encloses hr hm hmnode hmr
      · exact mem_ancestors_self m
      · exact absurd hholds (List.find?_eq_none.1 hfind d hd)

end Cursor

/-! ## Navigation -/

/-- What a tree stores is what its leaves and nodes make. -/
structure Cached (t : Tree) : Prop where
  length : t.length = totalLength t.frontier
  leafCount : t.leafCount = t.frontier.length
  hasError : t.hasError = t.flawed

private theorem Cursor.Fits.cached {m : Cursor} (h : m.Fits) : Cached m.tree where
  length := h.length_eq
  leafCount := by
    rw [h.consistent.leafCount_eq, clamp_of_le (Nat.le_trans (length_frontier_le _) h.weight)]
  hasError := h.consistent.hasError_eq

/-- The walks over a tree, the lookups of its places and the sizes in its nodes tell of one and the
same tree. -/
structure Navigable (root : Tree) : Prop where
  tokens : (Cursor.root root).tokens.toList = (Cursor.root root).outline.filter (!·.tree.isNode)
  leaves : (Cursor.root root).tokens.toList.map Cursor.tree = root.frontier.map .leaf
  tiles : Range.Tiles (Cursor.root root).range ((Cursor.root root).tokens.toList.map Cursor.range)
  descendants : (Cursor.root root).descendants.toList =
    (Cursor.root root).outline.filter (·.tree.isNode)
  placed : ∀ m ∈ (Cursor.root root).outline, Cursor.Placed root m
  linked : ∀ n ∈ (Cursor.root root).outline, ∀ k, Cursor.Linked root n k
  cached : ∀ m ∈ (Cursor.root root).outline, Cached m.tree
  covering : ∀ r : Range, r.start < r.stop → (Cursor.root root).range.encloses r = true →
    Cursor.Covers (.root root) r ((Cursor.root root).covering r)

theorem Consistent.navigable {root : Tree} (built : root.Consistent) (node : root.isNode = true)
    (length : totalLength root.frontier < 2 ^ 32) (weight : root.weight < 2 ^ 32) :
    Navigable root := by
  have hfits : (Cursor.root root).Fits := by
    refine ⟨built, Nat.zero_le _, ?_, ?_⟩ <;>
      simp only [Cursor.offset, Cursor.tree, maxSize] <;> omega
  have htokens := hfits.tokens_eq node
  exact {
    tokens := htokens
    leaves := by rw [htokens, Cursor.map_tree_leaves, Cursor.tree]
    tiles := by rw [htokens]; exact hfits.tiles
    descendants := hfits.descendants_eq node
    placed := Cursor.placed_of_mem_outline root
    linked := fun n hn k => (hfits.outline n hn).linked hn k
    cached := fun m hm => (hfits.outline m hm).cached
    covering := fun r hr hin => hfits.covers hr node hin }

/-- A node between two empty ones, followed by a leaf. -/
def nested : Tree :=
  branch ⟨12⟩ [branch ⟨10⟩ [] [] 0, branch ⟨11⟩ [.leaf (.ofKind ⟨2⟩ 4), .leaf (.ofKind ⟨3⟩ 1)] [] 0,
    branch ⟨10⟩ [] [] 0, .leaf (.ofKind ⟨2⟩ 2)] [] 0

private theorem consistent_nested : nested.Consistent := by
  refine .node fun c hc => ?_
  simp only [List.mem_cons, List.not_mem_nil, or_false] at hc
  rcases hc with rfl | rfl | rfl | rfl
  · exact .node nofun
  · refine .node fun c hc => ?_
    simp only [List.mem_cons, List.not_mem_nil, or_false] at hc
    rcases hc with rfl | rfl <;> exact .leaf _
  · exact .node nofun
  · exact .leaf _

theorem navigable_nested :
    nested.Consistent ∧ nested.isNode = true ∧ totalLength nested.frontier < 2 ^ 32 ∧
    nested.weight < 2 ^ 32 ∧ Navigable nested :=
  ⟨consistent_nested, rfl, by decide, by decide,
    consistent_nested.navigable rfl (by decide) (by decide)⟩

end Tree
end Reparse
