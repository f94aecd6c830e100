import Reparse.Proofs.Places
import Reparse.Proofs.Simulation

/-! # Trees of words with blanks between them

Where words have one blank between them, trees that cover them have their places in the text by the
lengths of the words alone. -/
namespace Reparse
open Text Reparse.Tree

def blank : UInt8 := 32

/-- Words with a blank before each. -/
def led (ws : List (List UInt8)) : List UInt8 := ws.flatMap (blank :: ·)

/-- Words with a blank between them. -/
def spaced (ws : List (List UInt8)) : List UInt8 := [blank].intercalate ws

@[simp] theorem led_nil : led [] = [] := rfl
@[simp] theorem led_cons (w : List UInt8) (ws : List (List UInt8)) :
    led (w :: ws) = blank :: (w ++ led ws) := rfl
@[simp] theorem led_append (ws vs : List (List UInt8)) : led (ws ++ vs) = led ws ++ led vs :=
  List.flatMap_append

theorem eq_blank_of_head_led {ws : List (List UInt8)} :
    ∀ b, (led ws).head? = some b → b = blank := by
  cases ws with
  | nil => nofun
  | cons w ws =>
    rintro b ⟨⟩
    rfl

@[simp] theorem spaced_cons (w : List UInt8) (ws : List (List UInt8)) :
    spaced (w :: ws) = w ++ led ws := by
  induction ws generalizing w with
  | nil => simp [spaced]
  | cons v ws ih =>
    rw [spaced, List.intercalate_cons_cons, ← spaced, ih, led_cons, List.append_assoc]; rfl

theorem led_eq_cons {ws : List (List UInt8)} (h : ws ≠ []) : led ws = blank :: spaced ws := by
  cases ws with
  | nil => exact absurd rfl h
  | cons w ws => rw [led_cons, spaced_cons]

/-- Where words with blanks between them are from an offset on. -/
def layout {α : Type} (start : Nat) : List (List UInt8 × α) → List (α × Nat × Bytes)
  | [] => []
  | (w, a) :: rest => (a, start, w.toArray) :: layout (start + w.length + 1) rest

/-! ## Trees that cover words -/

/-- A leaf for a blank. -/
structure Leaf.Blank (l : Language) (leaf : Leaf) : Prop where
  extra : l.isExtra leaf.kind = true
  length : leaf.length = 1
  clean : leaf.isError = false

/-- A tree has all of a word, without errors, and is of the kind with a number. -/
structure Tree.Covers (l : Language) (x : List UInt8 × Nat) (t : Tree) : Prop where
  kind : t.kind = ⟨x.2⟩
  length : totalLength t.frontier = x.1.length
  clean : t.hasError = false
  proper : l.isExtra ⟨x.2⟩ = false

/-- Trees that cover words, with a blank before each. -/
inductive Tree.Row (l : Language) : List (List UInt8 × Nat) → List Tree → Prop
  | nil : Row l [] []
  | cons {x : List UInt8 × Nat} {rest : List (List UInt8 × Nat)} {leaf : Leaf} {t : Tree}
      {ts : List Tree} (blank : leaf.Blank l) (first : Covers l x t) (more : Row l rest ts) :
      Row l (x :: rest) (.leaf leaf :: t :: ts)

namespace Tree

variable {l : Language} {x : List UInt8 × Nat} {xs ys : List (List UInt8 × Nat)} {t node : Tree}
  {ts us closed : List Tree} {y : Nat}

theorem Covers.isTrivia (h : Covers l x t) : l.isTrivia t = false := by
  cases t with
  | leaf leaf => exact (congrArg l.isExtra h.kind).trans h.proper
  | node info children => rfl

theorem Row.append (h : Row l xs ts) (h' : Row l ys us) : Row l (xs ++ ys) (ts ++ us) := by
  induction h with
  | nil => exact h'
  | cons blank first more ih => exact .cons blank first ih

private theorem Row.length (h : Row l xs ts) :
    totalLength (forestFrontier ts) = (led (xs.map (·.1))).length := by
  induction h with
  | nil => rfl
  | cons blank first more ih =>
    simp only [forestFrontier, frontier, List.singleton_append, totalLength_cons,
      totalLength_append, blank.length, first.length, ih, List.map_cons, led_cons, List.length_cons,
      List.length_append]
    omega

theorem Row.clean (h : Row l xs ts) : ts.any hasError = false := by
  induction h with
  | nil => rfl
  | @cons x rest leaf t ts blank first more ih =>
    have hleaf : (Tree.leaf leaf).hasError = false := blank.clean
    rw [List.any_cons, List.any_cons, hleaf, first.clean, ih]
    rfl

/-- A node over trees covers their words with the blanks between them. -/
private theorem Covers.over (h : Covers l x t) (hrow : Row l xs ts)
    (hnode : Parse.NodeOver ⟨y⟩ (t :: ts) node) (hproper : l.isExtra ⟨y⟩ = false) :
    Covers l (spaced (x.1 :: xs.map (·.1)), y) node where
  kind := hnode.kind
  length := by
    rw [← frontier_children node hnode.isNode, hnode.children, forestFrontier, totalLength_append,
      h.length, hrow.length, spaced_cons, List.length_append]
  clean := by rw [hnode.hasError, List.any_cons, h.clean, hrow.clean, Bool.or_false]
  proper := hproper

/-- Where words are reduced to a node, the blank before them stays outside. -/
theorem node_of_closes {leaf : Leaf} (hblank : leaf.Blank l) (ht : l.isTrivia t = false)
    (hcloses : Parse.Closes l ⟨y⟩ (.leaf leaf :: t :: ts) closed)
    (hvisible : l.isVisible ⟨y⟩ = true) :
    ∃ node, closed = [.leaf leaf, node] ∧ Parse.NodeOver ⟨y⟩ (t :: ts) node := by
  rw [Parse.Closes, if_pos hvisible] at hcloses
  obtain ⟨node, rfl, hnode⟩ := hcloses
  have htrivia : l.isTrivia (.leaf leaf) = true := hblank.extra
  have hproper : ¬ l.isTrivia t = true := Bool.eq_false_iff.1 ht
  rw [List.dropWhile_cons_of_pos htrivia, List.dropWhile_cons_of_neg hproper] at hnode
  exact ⟨node, by rw [List.takeWhile_cons_of_pos htrivia, List.takeWhile_cons_of_neg hproper]; rfl,
    hnode⟩

theorem Row.reduced (h : Row l (x :: xs) ts) (hcloses : Parse.Closes l ⟨y⟩ ts closed)
    (hvisible : l.isVisible ⟨y⟩ = true) (hproper : l.isExtra ⟨y⟩ = false) :
    Row l [(spaced (x.1 :: xs.map (·.1)), y)] closed := by
  cases h with
  | @cons _ _ leaf t us blank first more =>
    obtain ⟨node, rfl, hnode⟩ := node_of_closes blank first.isTrivia hcloses hvisible
    exact .cons blank (first.over more hnode hproper) .nil

/-- A node with some property behind a blank. -/
def AfterBlank (l : Language) (inner : Tree → Prop) (ts : List Tree) : Prop :=
  ∃ leaf node, ts = [.leaf leaf, node] ∧ leaf.Blank l ∧ node.isNode = true ∧ inner node

/-- The node of a kind is over trees that cover words, the first of them without a blank before
it. -/
def Lists (l : Language) (y : Nat) (x : List UInt8 × Nat) (xs : List (List UInt8 × Nat))
    (t : Tree) : Prop :=
  ∃ u us, Parse.NodeOver ⟨y⟩ (u :: us) t ∧ Covers l x u ∧ Row l xs us

theorem Lists.hasError (h : Lists l y x xs t) : t.hasError = false := by
  obtain ⟨u, us, hnode, hfirst, hmore⟩ := h
  rw [hnode.hasError, List.any_cons, hfirst.clean, hmore.clean, Bool.or_false]

theorem Row.lists (h : Row l (x :: xs) ts) (hcloses : Parse.Closes l ⟨y⟩ ts closed)
    (hvisible : l.isVisible ⟨y⟩ = true) :
    AfterBlank l (Lists l y x xs) closed := by
  cases h with
  | @cons _ _ leaf t us blank first more =>
    obtain ⟨node, rfl, hnode⟩ := node_of_closes blank first.isTrivia hcloses hvisible
    exact ⟨leaf, node, rfl, blank, hnode.isNode, t, us, hnode, first, more⟩

/-! ## Places -/

/-- The children from some place on. -/
private theorem Cursor.childrenFrom_eq_append (parent : Cursor) (done : List Cursor)
    (index offset : Nat) (ts : List Tree) :
    childrenFrom parent done index offset ts =
      done.reverse ++ childrenFrom parent [] index offset ts := by
  induction ts generalizing done index offset with
  | nil => exact (List.append_nil _).symm
  | cons t rest ih =>
    rw [childrenFrom, childrenFrom, ih, ih [_], List.reverse_cons, List.append_assoc]
    rfl

theorem Cursor.childrenFrom_cons (parent : Cursor) (index offset : Nat) (t : Tree)
    (ts : List Tree) :
    childrenFrom parent [] index offset (t :: ts) =
      parent.childPlace index offset t ::
        childrenFrom parent [] (index + 1) (plus offset t.length) ts := by
  rw [childrenFrom, childrenFrom_eq_append]
  rfl

theorem Consistent.plus_length {offset : Nat} (h : t.Consistent)
    (hle : offset + totalLength t.frontier ≤ maxSize) :
    plus offset t.length = offset + totalLength t.frontier := by
  rw [h.length_exact (Nat.le_trans (Nat.le_add_left _ _) hle), plus_of_le hle]

/-- The children that are no extras, from some place on. -/
def Cursor.properFrom (l : Language) (parent : Cursor) (index offset : Nat) (ts : List Tree) :
    List Cursor :=
  (childrenFrom parent [] index offset ts).filter fun c => !l.isExtra c.tree.kind

private theorem Cursor.properFrom_of_extra {parent : Cursor} {index offset : Nat}
    (h : l.isExtra t.kind = true) :
    properFrom l parent index offset (t :: ts) =
      properFrom l parent (index + 1) (plus offset t.length) ts := by
  have hplace : (!l.isExtra (parent.childPlace index offset t).tree.kind) = false := by
    rw [Bool.not_eq_false']; exact h
  rw [properFrom, childrenFrom_cons, List.filter_cons, hplace, if_neg Bool.false_ne_true,
    properFrom]

private theorem Cursor.properFrom_of_proper {parent : Cursor} {index offset : Nat}
    (h : l.isExtra t.kind = false) :
    properFrom l parent index offset (t :: ts) =
      parent.childPlace index offset t ::
        properFrom l parent (index + 1) (plus offset t.length) ts := by
  have hplace : (!l.isExtra (parent.childPlace index offset t).tree.kind) = true := by
    rw [Bool.not_eq_true']; exact h
  rw [properFrom, childrenFrom_cons, List.filter_cons, hplace, if_pos rfl, properFrom]

/-! ## Nodes around nodes -/

/-- A node over one other node and, before it, leaves that are as long as a text. -/
def Wraps (y : Nat) (w : List UInt8) (inner : Tree → Prop) (t : Tree) : Prop :=
  ∃ ts node, Parse.NodeOver ⟨y⟩ (ts ++ [node]) t ∧ (∀ u ∈ ts, u.isNode = false) ∧
    totalLength (forestFrontier ts) = w.length ∧ ts.any hasError = false ∧
    node.isNode = true ∧ inner node

section
variable {w : List UInt8} {inner : Tree → Prop}

theorem Wraps.isNode (h : Wraps y w inner t) : t.isNode = true := by
  obtain ⟨ts, node, hnode, -⟩ := h
  exact hnode.isNode

theorem Wraps.kind (h : Wraps y w inner t) : t.kind = ⟨y⟩ := by
  obtain ⟨ts, node, hnode, -⟩ := h
  exact hnode.kind

theorem Wraps.hasError (h : Wraps y w inner t)
    (hinner : ∀ node, inner node → node.hasError = false) : t.hasError = false := by
  obtain ⟨ts, node, hnode, -, -, hclean, -, hin⟩ := h
  rw [hnode.hasError, List.any_append, hclean, List.any_cons, List.any_nil, hinner node hin]
  rfl

/-- Words and a node behind a blank make a node around the node. -/
theorem Wraps.of_node (hfirst : Covers l x t) (hrow : Row l xs ts)
    (hleaves : ∀ u ∈ t :: ts, u.isNode = false) (hafter : AfterBlank l inner us)
    (hnode : Parse.NodeOver ⟨y⟩ (t :: (ts ++ us)) node) :
    Wraps y (spaced (x.1 :: xs.map (·.1)) ++ [blank]) inner node := by
  obtain ⟨leaf, last, rfl, hblank, hlast, hin⟩ := hafter
  have hclean : (Tree.leaf leaf).hasError = false := hblank.clean
  refine ⟨t :: ts ++ [.leaf leaf], last, by simpa using hnode, ?_, ?_, ?_, hlast, hin⟩
  · intro u hu
    rcases List.mem_append.1 hu with hu | hu
    · exact hleaves u hu
    · rw [List.mem_singleton.1 hu]
      rfl
  · rw [forestFrontier_append, totalLength_append, forestFrontier, totalLength_append,
      hfirst.length, hrow.length, spaced_cons, List.length_append, List.length_append,
      forestFrontier, forestFrontier, frontier, List.append_nil, totalLength_cons, hblank.length]
    rfl
  · rw [List.any_append, List.any_cons, hfirst.clean, hrow.clean, List.any_cons, hclean]
    rfl

theorem Wraps.of_closes (hrow : Row l (x :: xs) ts) (hleaves : ∀ u ∈ ts, u.isNode = false)
    (hafter : AfterBlank l inner us) (hcloses : Parse.Closes l ⟨y⟩ (ts ++ us) closed)
    (hvisible : l.isVisible ⟨y⟩ = true) :
    AfterBlank l (Wraps y (spaced (x.1 :: xs.map (·.1)) ++ [blank]) inner) closed := by
  cases hrow with
  | @cons _ _ leaf t ts hblank hfirst hmore =>
    obtain ⟨node, rfl, hnode⟩ := node_of_closes hblank hfirst.isTrivia hcloses hvisible
    exact ⟨leaf, node, rfl, hblank, hnode.isNode,
      .of_node hfirst hmore (fun u hu => hleaves u (List.mem_cons_of_mem _ hu)) hafter hnode⟩

end

/-- What is stored at a place and below it is not cut off. -/
structure Cursor.Exact (c : Cursor) : Prop where
  consistent : c.tree.Consistent
  length : c.offset + totalLength c.tree.frontier ≤ maxSize

section
variable {w : List UInt8} {inner : Tree → Prop}

private theorem Cursor.childNodes_of_leaves (parent : Cursor) (index offset : Nat)
    (hleaves : ∀ u ∈ ts, u.isNode = false) (hnode : node.isNode = true)
    (hconsistent : ∀ u ∈ ts, u.Consistent)
    (hle : offset + totalLength (forestFrontier ts) ≤ maxSize) :
    (childrenFrom parent [] index offset (ts ++ [node])).filter (·.tree.isNode) =
      [parent.childPlace (index + ts.length) (offset + totalLength (forestFrontier ts)) node] := by
  induction ts generalizing index offset with
  | nil =>
    have hplace : (parent.childPlace index offset node).tree.isNode = true := hnode
    rw [List.nil_append, childrenFrom_cons, List.filter_cons, if_pos hplace]
    rfl
  | cons t ts ih =>
    have hplace : (parent.childPlace index offset t).tree.isNode = false :=
      hleaves t List.mem_cons_self
    rw [forestFrontier, totalLength_append] at hle
    have hrest := @ih (index + 1) (offset + totalLength t.frontier)
      (fun u hu => hleaves u (List.mem_cons_of_mem _ hu))
      (fun u hu => hconsistent u (List.mem_cons_of_mem _ hu)) (by omega)
    rw [List.cons_append, childrenFrom_cons, List.filter_cons, hplace, if_neg Bool.false_ne_true,
      (hconsistent t List.mem_cons_self).plus_length (by omega), hrest, forestFrontier,
      totalLength_append, List.length_cons, Nat.add_assoc, Nat.add_assoc, Nat.add_comm 1]

/-- The node inside is found behind the text. -/
theorem Wraps.childNodes {c : Cursor} (h : Wraps y w inner c.tree) (hc : c.Exact) :
    ∃ d, c.childNodes = [d] ∧ inner d.tree ∧ d.offset = c.offset + w.length ∧ d.Exact := by
  obtain ⟨ts, node, hover, hleaves, hlength, -, hnode, hin⟩ := h
  have hchildren := hc.consistent.children
  have hle := hc.length
  rw [← frontier_children c.tree hover.isNode, hover.children, forestFrontier_append,
    totalLength_append] at hle
  rw [hover.children] at hchildren
  have hfilter := Cursor.childNodes_of_leaves c 0 c.offset hleaves hnode
    (fun u hu => hchildren u (List.mem_append_left _ hu)) (by omega)
  rw [← hover.children] at hfilter
  refine ⟨_, hfilter, hin, by rw [← hlength]; rfl,
    hchildren node (List.mem_append_right _ List.mem_cons_self), ?_⟩
  have hfrontier : forestFrontier [node] = node.frontier := List.append_nil _
  rw [hfrontier] at hle
  exact Nat.le_trans (Nat.le_of_eq (Nat.add_assoc _ _ _)) hle

end

/-! ## Reports -/

/-- What is told of a place: the name of its kind, its offset and its text. -/
def Cursor.report (l : Language) (source : Bytes) (c : Cursor) : String × Nat × Bytes :=
  (l.kindName c.tree.kind, c.offset, (c.range.slice? source).getD #[])

section
variable {source : Bytes} {before after : List UInt8}

private theorem Covers.report {parent : Cursor} {index : Nat} (h : Covers l x t)
    (hconsistent : t.Consistent) (hsource : source.toList = before ++ (x.1 ++ after))
    (hsize : source.size ≤ maxSize) : (parent.childPlace index before.length t).report l source =
      (l.kindName ⟨x.2⟩, before.length, x.1.toArray) := by
  have hlength := congrArg List.length hsource
  simp only [Array.length_toList, List.length_append] at hlength
  have hexact : t.length = x.1.length := by
    rw [hconsistent.length_exact (by rw [h.length]; omega), h.length]
  have hrange : (parent.childPlace index before.length t).range =
      ⟨before.length, before.length + x.1.length⟩ := by
    rw [← hexact]
    rfl
  have hinside : before.length ≤ before.length + x.1.length ∧
      before.length + x.1.length ≤ source.size := by omega
  have hslice : source.extract before.length (before.length + x.1.length) = x.1.toArray := by
    rw [← Array.toList_inj, Array.toList_extract, hsource, List.extract_eq_take_drop,
      List.drop_left, Nat.add_sub_cancel_left, List.take_left]
  rw [Cursor.report, hrange, Range.slice?, if_pos hinside, hslice]
  exact congrArg (·, _, _) (congrArg l.kindName h.kind)

/-- Trees that cover words are where the words are. -/
theorem Row.report (parent : Cursor) (index : Nat) (h : Row l xs ts)
    (hconsistent : ∀ t ∈ ts, t.Consistent)
    (hsource : source.toList = before ++ (led (xs.map (·.1)) ++ after))
    (hsize : source.size ≤ maxSize) :
    (Cursor.properFrom l parent index before.length ts).map (Cursor.report l source) =
      layout (before.length + 1) (xs.map fun x => (x.1, l.kindName ⟨x.2⟩)) := by
  induction h generalizing before index with
  | nil => rfl
  | @cons x rest leaf t ts hblank hfirst hmore ih =>
    have ht : t.Consistent := hconsistent t (by simp)
    have hproper : l.isExtra t.kind = false := by rw [hfirst.kind]; exact hfirst.proper
    have hlength := congrArg List.length hsource
    simp only [Array.length_toList, List.length_append, List.map_cons, led_cons,
      List.length_cons] at hlength
    have hplace : source.toList = (before ++ [blank]) ++
        (x.1 ++ (led (rest.map (·.1)) ++ after)) := by simp [hsource]
    have hskip : plus before.length (Tree.leaf leaf).length = (before ++ [blank]).length := by
      rw [Tree.length, hblank.length, plus_of_le (by omega), List.length_append,
        List.length_singleton]
    have hnext : plus (before ++ [blank]).length t.length = (before ++ [blank] ++ x.1).length := by
      have hle : (before ++ [blank]).length + totalLength t.frontier ≤ maxSize := by
        rw [hfirst.length, List.length_append, List.length_singleton]
        omega
      rw [ht.plus_length hle, hfirst.length, ← List.length_append]
    have hrest :=
      @ih (before ++ [blank] ++ x.1) (index + 1 + 1) (fun u hu => hconsistent u (by simp [hu]))
      (by rw [hplace, List.append_assoc _ x.1])
    rw [Cursor.properFrom_of_extra hblank.extra, hskip, Cursor.properFrom_of_proper hproper, hnext,
      List.map_cons, List.map_cons, hfirst.report ht hplace hsize, hrest, layout]
    simp only [List.length_append, List.length_singleton]

/-- The children that are no extras are where the words are. -/
theorem Lists.report {c : Cursor} (h : Lists l y x xs c.tree) (hc : c.Exact)
    (hoffset : c.offset = before.length)
    (hsource : source.toList = before ++ (spaced (x.1 :: xs.map (·.1)) ++ after))
    (hsize : source.size ≤ maxSize) :
    (c.children.filter fun n => !l.isExtra n.tree.kind).map (Cursor.report l source) =
      layout before.length ((x :: xs).map fun x => (x.1, l.kindName ⟨x.2⟩)) := by
  obtain ⟨u, us, hnode, hfirst, hmore⟩ := h
  have hconsistent := hc.consistent.children
  rw [hnode.children] at hconsistent
  have hu : u.Consistent := hconsistent u List.mem_cons_self
  have hproper : l.isExtra u.kind = false := by rw [hfirst.kind]; exact hfirst.proper
  rw [spaced_cons, List.append_assoc] at hsource
  have hlength := congrArg List.length hsource
  simp only [Array.length_toList, List.length_append] at hlength
  have hnext : plus before.length u.length = (before ++ x.1).length := by
    rw [hu.plus_length (by rw [hfirst.length]; omega), hfirst.length, ← List.length_append]
  have hplace : source.toList = before ++ x.1 ++ (led (xs.map (·.1)) ++ after) := by
    rw [hsource, List.append_assoc]
  have hrest :=
    hmore.report c 1 (fun t ht => hconsistent t (List.mem_cons_of_mem _ ht)) hplace hsize
  have hchildren : c.children.filter (fun n => !l.isExtra n.tree.kind) =
      Cursor.properFrom l c 0 before.length (u :: us) := by
    rw [Cursor.properFrom, Cursor.children, hoffset, hnode.children]
  rw [hchildren, Cursor.properFrom_of_proper hproper, hnext, List.map_cons, List.map_cons,
    hfirst.report hu hsource hsize, hrest, layout, List.length_append]

end
end Tree
end Reparse
