import Reparse.Proofs.Replay
import Reparse.Proofs.Terminals
import Reparse.Proofs.Trivia

/-! # What the nodes of a tree are

Below the root there are nodes for visible rules, error nodes, and tokens. Nodes of hidden rules are
spliced into their parents, extras stay outside of the nodes that begin or end with them, and fields
name neither extras nor errors. One invariant of the parse stack says all this, since a node is made
of what entries hold: nodes and tokens that are as they should be, fields on proper elements only,
and behind the last extra a token that is none. -/
namespace Reparse
open Grammar Parse Text Reparse.Tree

namespace Tree

/-- The token is no end of input. It has the kind that the lexer found, or may stand in for a word
and is read as one; extras are not. -/
structure ReadAs (l : Language) (leaf : Leaf) : Prop where
  proper : leaf.kind ≠ .eof
  kind : leaf.kind = leaf.lexedKind ∨
    leaf.flags.word = true ∧ l.word = some leaf.kind ∧ l.isExtra leaf.lexedKind = false

/-- Children with fields are neither extras nor errors. -/
def FieldsFit (l : Language) (es : List Element) : Prop :=
  ∀ e ∈ es, e.1.isSome = true →
    l.isTrivia e.2 = false ∧ e.2.isErrorNode = false ∧ ∀ leaf, e.2 = .leaf leaf →
    leaf.isError = false

/-- The last of the leaves, if there is one, is no extra. -/
def EndsProper (l : Language) (leaves : List Leaf) : Prop :=
  ∀ leaf, leaves.getLast? = some leaf → l.isExtra leaf.kind = false

/-- A node for a visible rule, with no extras at its ends. -/
structure ForRule (l : Language) (t : Tree) : Prop where
  nonterminal : l.isTerminal t.kind = false
  visible : l.isVisible t.kind = true
  first : ∀ c, t.children.head? = some c → l.isTrivia c = false
  last : EndsProper l t.frontier

/-- What a tree of a text looks like. -/
structure WellFormed (l : Language) (root : Tree) : Prop where
  tokens : ∀ leaf ∈ root.leaves, ReadAs l leaf
  nodes : ∀ t, t = root ∨ (∃ i, Occurs root.children i t) → t.isNode = true →
    t.kind ≠ .eof ∧ l.isVisible t.kind = true ∧ FieldsFit l t.labelledChildren
  below : ∀ i t, Occurs root.children i t → t.isNode = true →
    (t.isErrorNode = true ↔ t.kind = .error) ∧ (t.kind ≠ .error → t.ForRule l)

/-- A tree that may stand below the root. -/
inductive WellMade (l : Language) : Tree → Prop
  | leaf {leaf : Leaf} (read : ReadAs l leaf) : WellMade l (.leaf leaf)
  | node {info : NodeInfo} {children : List Tree}
      (sort : info.isError = true ∧ info.kind = .error ∨ info.isError = false ∧
        ForRule l (.node info children))
      (fields : FieldsFit l (Tree.node info children).labelledChildren)
      (below : ∀ c ∈ children, WellMade l c) : WellMade l (.node info children)

end Tree

namespace Compilation

variable (k : Compilation)

/-- Error nodes are visible. -/
private theorem isVisible_error : k.language.isVisible .error = true := by
  obtain ⟨f⟩ := flattening_of_flatten k.flattened
  change (k.flat.symbols[Kind.error.id]?).any (·.visible) = true
  rw [f.symbol_error]
  rfl

theorem nonterminal_iff {kind : Kind} :
    k.language.isTerminal kind = false ↔ k.flat.terminalCount ≤ kind.id := by
  change decide (kind.id < k.flat.terminalCount) = false ↔ _
  rw [decide_eq_false_iff_not, Nat.not_lt]

private theorem ne_of_nonterminal {kind : Kind} (h : k.language.isTerminal kind = false) :
    kind ≠ .eof ∧ kind ≠ .error := by
  have hterminals := k.wellFormed.terminals
  have hle := k.nonterminal_iff.1 h
  constructor
  · rintro rfl
    exact absurd (Nat.le_trans hterminals hle) (by decide)
  · rintro rfl
    exact absurd (Nat.le_trans hterminals hle) (by decide)

end Compilation

namespace Tree

variable {l : Language}

private theorem EndsProper.append {a b : List Leaf} (ha : EndsProper l a) (hb : EndsProper l b) :
    EndsProper l (a ++ b) := by
  intro leaf hleaf
  rw [List.getLast?_append] at hleaf
  cases hlast : b.getLast? with
  | some last =>
    rw [hlast] at hleaf
    exact hb leaf (hlast.trans hleaf)
  | none =>
    rw [hlast] at hleaf
    exact ha leaf hleaf

/-- What is left of leaves that end well ends well. -/
private theorem EndsProper.right {a b : List Leaf} (h : EndsProper l (a ++ b)) :
    EndsProper l b := by
  intro leaf hleaf
  refine h leaf ?_
  rw [List.getLast?_append, hleaf]
  rfl

private theorem endsProper_concat {ls : List Leaf} {last : Leaf} (h : l.isExtra last.kind = false) :
    EndsProper l (ls ++ [last]) := by
  intro leaf hleaf
  rw [List.getLast?_concat] at hleaf
  obtain rfl := Option.some.inj hleaf
  exact h

private theorem FieldsFit.append {a b : List Element} (ha : FieldsFit l a) (hb : FieldsFit l b) :
    FieldsFit l (a ++ b) := by
  intro e he
  rcases List.mem_append.1 he with he | he
  · exact ha e he
  · exact hb e he

theorem fieldsFit_bare (ts : List Tree) : FieldsFit l (ts.map Stack.bare) := by
  intro e he hfield
  obtain ⟨t, -, rfl⟩ := List.mem_map.1 he
  contradiction

private theorem takesField_iff {t : Tree} : takesField l t = true ↔
    l.isTrivia t = false ∧ t.isErrorNode = false ∧ ∀ leaf, t = .leaf leaf →
      leaf.isError = false := by
  cases t with
  | leaf leaf => simp [takesField, Language.isTrivia, isErrorNode, and_comm]
  | node info children => simp [takesField, Language.isTrivia, isErrorNode]

private theorem labelledChildren_of_fields {t : Tree} (h : t.fields = #[]) :
    t.labelledChildren = t.children.map Stack.bare := by
  unfold labelledChildren
  rw [h]
  rfl

namespace WellMade

private theorem fieldsFit {t : Tree} (h : WellMade l t) : FieldsFit l t.labelledChildren := by
  cases h with
  | leaf read =>
    intro e he
    contradiction
  | node sort fields below => exact fields

private theorem children {t : Tree} (h : WellMade l t) : ∀ c ∈ t.children, WellMade l c := by
  cases h with
  | leaf read =>
    intro c hc
    contradiction
  | node sort fields below => exact below

theorem errorNode {ts : List Tree} (h : ∀ t ∈ ts, WellMade l t) (state : Nat) :
    WellMade l (.errorNode ts state) := by
  refine .node (.inl ⟨isError_infoOf, kind_infoOf⟩) ?_ h
  have hfields : (Tree.errorNode ts state).fields = #[] :=
    fields_infoOf.trans (by simp [sortFields])
  have hlabelled := labelledChildren_of_fields hfields
  unfold Tree.errorNode at hlabelled
  rw [hlabelled]
  exact fieldsFit_bare _

theorem leafTrees {leaves : Array Leaf} (h : ∀ leaf ∈ leaves, ReadAs l leaf) :
    ∀ t ∈ leafTrees leaves, WellMade l t := by
  intro t ht
  obtain ⟨leaf, hleaf, rfl⟩ := List.mem_map.1 ht
  exact .leaf (h leaf (Array.mem_toList_iff.1 hleaf))

private theorem occurs {ts : List Tree} {i : Nat} {t : Tree} (h : Occurs ts i t)
    (hts : ∀ u ∈ ts, WellMade l u) :
    WellMade l t := by
  induction h with
  | here => exact hts _ List.mem_cons_self
  | inside below ih => exact ih (hts _ List.mem_cons_self).children
  | later behind ih => exact ih fun u hu => hts u (List.mem_cons_of_mem _ hu)

theorem frontier {t : Tree} (h : WellMade l t) : ∀ leaf ∈ t.frontier, ReadAs l leaf := by
  induction h with
  | leaf read =>
    intro leaf hleaf
    rw [List.mem_singleton.1 hleaf]
    exact read
  | node sort fields below ih =>
    intro leaf hleaf
    rw [Tree.frontier, forestFrontier_eq_flatMap] at hleaf
    obtain ⟨c, hc, hleaf⟩ := List.mem_flatMap.1 hleaf
    exact ih c hc leaf hleaf

end WellMade
end Tree

/-! ## Entries -/

namespace Parse

variable {l : Language}

/-- The elements of an entry are what a node can be made of. -/
structure Regular (l : Language) (es : List Element) : Prop where
  made : ∀ e ∈ es, WellMade l e.2
  fields : FieldsFit l es
  ends : EndsProper l (forestFrontier (es.map (·.2)))

namespace Regular

private theorem nil : Regular l [] where
  made := nofun
  fields := nofun
  ends := nofun

private theorem append {a b : List Element} (ha : Regular l a) (hb : Regular l b) :
    Regular l (a ++ b) where
  made := by
    intro e he
    rcases List.mem_append.1 he with he | he
    · exact ha.made e he
    · exact hb.made e he
  fields := ha.fields.append hb.fields
  ends := by
    rw [List.map_append, forestFrontier_append]
    exact ha.ends.append hb.ends

private theorem flatMap {α : Type} {f : α → List Element} {xs : List α}
    (h : ∀ x ∈ xs, Regular l (f x)) :
    Regular l (xs.flatMap f) := by
  induction xs with
  | nil => exact nil
  | cons x rest ih =>
    rw [List.flatMap_cons]
    exact (h x List.mem_cons_self).append (ih fun y hy => h y (List.mem_cons_of_mem _ hy))

/-- Elements without fields. -/
theorem bare {ts : List Tree} (made : ∀ t ∈ ts, WellMade l t)
    (ends : EndsProper l (forestFrontier ts)) :
    Regular l (ts.map Stack.bare) where
  made := by
    intro e he
    obtain ⟨t, ht, rfl⟩ := List.mem_map.1 he
    exact made t ht
  fields := fieldsFit_bare ts
  ends := by rwa [Stack.map_bare_snd]

private theorem right {a b : List Element} (h : Regular l (a ++ b)) : Regular l b where
  made e he := h.made e (List.mem_append_right a he)
  fields e he := h.fields e (List.mem_append_right a he)
  ends := by
    have hends := h.ends
    rw [List.map_append, forestFrontier_append] at hends
    exact hends.right

private theorem label {elements : Array Element} (h : Regular l elements.toList)
    (field : Option Field) :
    Regular l (label l elements field).toList := by
  have htrees : (Parse.label l elements field).toList.map (·.2) = elements.toList.map (·.2) :=
    treesOf_label l elements field
  cases field with
  | none => exact h
  | some f =>
    refine ⟨fun e he => ?_, fun e he hfield => ?_, by rw [htrees]; exact h.ends⟩
    · have hmem : e.2 ∈ elements.toList.map (·.2) := by
        rw [← htrees]
        exact List.mem_map_of_mem he
      obtain ⟨e', he', heq⟩ := List.mem_map.1 hmem
      rw [← heq]
      exact h.made e' he'
    · simp only [Parse.label, Array.toList_map, List.mem_map] at he
      obtain ⟨e', he', rfl⟩ := he
      split at hfield
      · next htakes =>
        rw [if_pos htakes]
        rw [Bool.and_eq_true] at htakes
        exact takesField_iff.1 htakes.2
      · next htakes =>
        rw [if_neg htakes]
        exact h.fields e' he' hfield

/-- The elements of a right-hand side with its fields. -/
private theorem labelAll {entries : List Entry} (h : ∀ e ∈ entries, Regular l e.elements.toList)
    (fields : List (Option Field)) :
    Regular l (labelAll l entries fields).toList := by
  rw [toList_labelAll]
  exact flatMap fun p hp => (h p.1 (List.of_mem_zip hp).1).label p.2

/-- The node of a visible rule over elements that begin with no extra. -/
private theorem forRule {elements : List Element} {kind : Kind} (h : Regular l elements)
    (nonterminal : l.isTerminal kind = false) (visible : l.isVisible kind = true)
    (first : ∀ e, elements.head? = some e → l.isTrivia e.2 = false) (state : Nat) :
    WellMade l (branchOf kind elements state) := by
  have hkind : (branchOf kind elements state).kind = kind := kind_branchOf kind elements state
  refine .node (.inr ⟨isError_infoOf, by rw [← hkind] at nonterminal; exact nonterminal,
    by rw [← hkind] at visible; exact visible, fun c hc => ?_, h.ends⟩) ?_ ?_
  · change (elements.map (·.2)).head? = some c at hc
    rw [List.head?_map] at hc
    obtain ⟨e, he, rfl⟩ := Option.map_eq_some_iff.1 hc
    exact first e he
  · have hlabelled := labelledChildren_branchOf kind elements state
    unfold Parse.branchOf Tree.branch at hlabelled
    rw [hlabelled]
    exact h.fields
  · intro c hc
    obtain ⟨e, he, rfl⟩ := List.mem_map.1 hc
    exact h.made e he

/-- What a reduction pushes. -/
private theorem reduced {elements : Array Element} {lhs : Kind} (h : Regular l elements.toList)
    (nonterminal : l.isTerminal lhs = false) (state : Nat) :
    Regular l (reduced l lhs elements state).toList := by
  cases hvisible : l.isVisible lhs with
  | false => rwa [reduced_hidden hvisible]
  | true =>
    have hsplit : elements.toList.takeWhile (fun e => l.isTrivia e.2) ++
        elements.toList.dropWhile (fun e => l.isTrivia e.2) = elements.toList :=
      List.takeWhile_append_dropWhile
    have hfrontier := frontier_reduced l lhs elements state
    have hinner : Regular l (elements.toList.dropWhile fun e => l.isTrivia e.2) := by
      rw [← hsplit] at h
      exact h.right
    refine ⟨fun e he => ?_, fun e he =>
      ?_, by rw [treesOf] at hfrontier; rw [hfrontier]; exact h.ends⟩
    · rw [reduced_visible hvisible] at he
      rcases List.mem_append.1 he with he | he
      · exact h.made e ((List.takeWhile_sublist _).subset he)
      · rw [List.mem_singleton.1 he]
        refine hinner.forRule nonterminal hvisible (fun e he => ?_) state
        have hhead := List.head?_dropWhile_not (fun e : Element => l.isTrivia e.2) elements.toList
        rw [he] at hhead
        simpa using hhead
    · rw [reduced_visible hvisible] at he
      rcases List.mem_append.1 he with he | he
      · exact h.fields e ((List.takeWhile_sublist _).subset he)
      · rw [List.mem_singleton.1 he]
        intro hfield
        contradiction

end Regular

/-! ## Machines -/

private theorem Regular.stack_append {s : Stack} (h : ∀ e ∈ s.entries, Regular l e.elements.toList)
    {t : Tree} (made : WellMade l t) (ends : EndsProper l t.frontier) :
    ∀ e ∈ (s.append t).entries, Regular l e.elements.toList := by
  rw [Stack.entries_eq] at h
  intro e he
  rw [Stack.entries_append] at he
  rcases List.mem_append.1 he with he | he
  · exact h e (List.mem_append_left _ he)
  · rw [List.mem_singleton.1 he]
    have htop := h s.top (List.mem_append_right _ (List.mem_singleton_self _))
    have hbare : Regular l ([t].map Stack.bare) :=
      .bare (fun u hu => by rwa [List.mem_singleton.1 hu]) (by simpa [forestFrontier] using ends)
    have happend := htop.append hbare
    simpa [Entry.pushTree, Stack.bare] using happend

private theorem Regular.trees {es : List Entry} (h : ∀ e ∈ es, Regular l e.elements.toList) :
    (∀ t ∈ es.flatMap (·.trees), WellMade l t) ∧
      EndsProper l (forestFrontier (es.flatMap (·.trees))) := by
  have hall := Regular.flatMap (f := fun e : Entry => e.elements.toList) h
  have htrees : (es.flatMap fun e => e.elements.toList).map (·.2) = es.flatMap (·.trees) := by
    rw [List.map_flatMap]
    rfl
  refine ⟨fun t ht => ?_, by rw [← htrees]; exact hall.ends⟩
  rw [← htrees] at ht
  obtain ⟨e, he, rfl⟩ := List.mem_map.1 ht
  exact hall.made e he

/-- Entries, waiting tokens and skipped tokens are what nodes can be made of. -/
structure Machine.Regular (l : Language) (m : Machine) : Prop where
  entries : ∀ e ∈ m.stack.entries, Parse.Regular l e.elements.toList
  pending : ∀ leaf ∈ m.pending, ReadAs l leaf
  skipped : ∀ leaf ∈ m.recovery.skipped, ReadAs l leaf
  ends : EndsProper l m.recovery.skipped.toList

/-- The root has the kind of the start rule, and below it is what may stand there. -/
structure RootMade (l : Language) (t : Tree) : Prop where
  node : t.isNode = true
  kind : t.kind = l.start
  fields : FieldsFit l t.labelledChildren
  below : ∀ c ∈ t.children, WellMade l c

namespace RootMade

private theorem branchOf {elements : List Element} (made : ∀ e ∈ elements, WellMade l e.2)
    (fields : FieldsFit l elements) :
    RootMade l (branchOf l.start elements 0) where
  node := rfl
  kind := kind_branchOf ..
  fields := by rwa [labelledChildren_branchOf]
  below := by
    intro c hc
    obtain ⟨e, he, rfl⟩ := List.mem_map.1 hc
    exact made e he

private theorem bare {ts : List Tree} (made : ∀ t ∈ ts, WellMade l t) :
    RootMade l (Parse.branchOf l.start (ts.map Stack.bare) 0) := by
  refine .branchOf (fun e he => ?_) (fieldsFit_bare ts)
  obtain ⟨t, ht, rfl⟩ := List.mem_map.1 he
  exact made t ht

private theorem failedRoot {ts : List Tree} (made : ∀ t ∈ ts, WellMade l t) :
    RootMade l (.failedRoot l.start ts) where
  node := rfl
  kind := kind_infoOf
  fields := by
    rw [labelledChildren_of_fields (t := .failedRoot l.start ts)
      (fields_infoOf.trans (by simp [sortFields]))]
    exact fieldsFit_bare _
  below := made

/-- The root of an accepted text. -/
private theorem root {s : Stack} {trailing : List Tree} (hs : ∀ t ∈ s.trees, WellMade l t)
    (ht : ∀ t ∈ trailing, WellMade l t) :
    RootMade l (s.root l.start trailing) := by
  rcases Stack.root_cases s l.start trailing with
      ⟨before, e, after, helements, -, -, hroot⟩ | ⟨-, hroot⟩
  · have htrees : s.trees = s.treesBelow ++ (before.map (·.2) ++ e.2 :: after.map (·.2)) := by
      rw [Stack.trees_eq_treesBelow]
      simp [Entry.trees, helements]
    rw [htrees] at hs
    have hstart : WellMade l e.2 := hs e.2 (by simp)
    rw [hroot]
    refine .branchOf (fun x hx => ?_)
      (((fieldsFit_bare _).append hstart.fieldsFit).append (fieldsFit_bare _))
    rcases List.mem_append.1 hx with hx | hx
    · rcases List.mem_append.1 hx with hx | hx
      · obtain ⟨t, hmem, rfl⟩ := List.mem_map.1 hx
        exact hs t (by rcases List.mem_append.1 hmem with h | h <;> simp [h])
      · refine hstart.children x.2 ?_
        rw [← labelledChildren_snd]
        exact List.mem_map_of_mem hx
    · obtain ⟨t, hmem, rfl⟩ := List.mem_map.1 hx
      rcases List.mem_append.1 hmem with h | h
      · exact hs t (by simp only [List.mem_append, List.mem_cons]; exact .inr (.inr (.inr h)))
      · exact ht t h
  · rw [hroot]
    refine bare fun t hmem => ?_
    rcases List.mem_append.1 hmem with h | h
    · exact hs t h
    · exact ht t h

/-- All of the tree is as it should be. -/
theorem wellFormed {k : Compilation} {t : Tree} (h : RootMade k.language t) :
    t.WellFormed k.language := by
  have hrule {u : Tree} (hu : WellMade k.language u) (hnode : u.isNode = true) :
      (u.isErrorNode = true ↔ u.kind = .error) ∧ (u.kind ≠ .error → u.ForRule k.language) := by
    cases hu with
    | leaf read => contradiction
    | node sort fields below =>
      rcases sort with ⟨herror, hkind⟩ | ⟨herror, hrule⟩
      · exact ⟨⟨fun _ => hkind, fun _ => herror⟩, fun hne => absurd hkind hne⟩
      · have hne := (k.ne_of_nonterminal hrule.nonterminal).2
        exact ⟨⟨fun htrue => absurd (herror.symm.trans htrue) nofun, fun heq => absurd heq hne⟩,
          fun _ => hrule⟩
  refine ⟨fun leaf hleaf => ?_, fun u hu hnode => ?_,
    fun i u hu hnode => hrule (.occurs hu h.below) hnode⟩
  · rw [← Array.mem_toList_iff, leaves_toList, ← frontier_children t h.node,
      forestFrontier_eq_flatMap] at hleaf
    obtain ⟨c, hc, hleaf⟩ := List.mem_flatMap.1 hleaf
    exact (h.below c hc).frontier leaf hleaf
  · rcases hu with rfl | ⟨i, hu⟩
    · obtain ⟨hterminal, hvisible⟩ := k.wellFormed.start
      rw [h.kind]
      exact ⟨(k.ne_of_nonterminal (k.nonterminal_iff.2 hterminal)).1, hvisible, h.fields⟩
    · have hmade := WellMade.occurs hu h.below
      refine ⟨?_, ?_, hmade.fieldsFit⟩
      · by_cases herror : u.kind = .error
        · rw [herror]
          exact nofun
        · exact (k.ne_of_nonterminal ((hrule hmade hnode).2 herror).nonterminal).1
      · by_cases herror : u.kind = .error
        · rw [herror]
          exact k.isVisible_error
        · exact ((hrule hmade hnode).2 herror).visible

end RootMade

variable {k : Compilation} {job : Job} {m : Machine}

/-- The tokens are as the lexer read them. -/
theorem Job.Scratch.readAs (h : job.Scratch k) {leaf : Leaf} (hleaf : leaf ∈ job.leaves) :
    ReadAs k.language leaf where
  proper := k.ne_eof_of_emits (h.emits leaf hleaf)
  kind := .inl (congrArg Leaf.kind (h.lexed leaf hleaf)).symm

/-- A token is pushed as its own kind or as the word. -/
private theorem readAs_reinterpret {leaf : Leaf} {state : Nat} {kind : Kind} {action : Table.Action}
    (h : ReadAs k.language leaf) (hproper : k.language.isExtra leaf.lexedKind = false)
    (haction : k.language.actionFor state (some leaf) = (kind, some action)) :
    ReadAs k.language (leaf.reinterpret kind) := by
  rcases (Language.actionFor_eq_some_iff.1 haction).2 with rfl | ⟨-, hflag, hword⟩
  · exact h
  · refine ⟨?_, .inr ⟨hflag, hword, hproper⟩⟩
    rintro rfl
    exact absurd (k.wellFormed.word _ hword).1 (by decide)

namespace Machine.Regular

private theorem start (l : Language) : Machine.Regular l {} where
  entries := by
    intro e he
    rw [List.mem_singleton.1 he]
    exact .nil
  pending := nofun
  skipped := nofun
  ends := nofun

private theorem collectExtras (hjob : job.Scratch k) (h : m.Regular k.language) :
    (job.collectExtras m).Regular k.language := by
  fun_induction Job.collectExtras job m with
  | case1 m hlt leaf hextra ih =>
    refine ih ⟨h.entries, fun other hother => ?_, h.skipped, h.ends⟩
    rcases Array.mem_push.1 hother with hother | rfl
    · exact h.pending other hother
    · have here : job.leaf? m.position = some leaf := by simp [Job.leaf?, hlt, leaf]
      exact hjob.readAs (Job.Scratch.mem_of_leaf? here)
  | case2 => exact h
  | case3 => exact h

private theorem flush (h : m.Regular l) : m.flush.Regular l := by
  unfold Machine.flush
  split
  · exact h
  · refine ⟨?_, h.pending, fun leaf hleaf => absurd hleaf (Array.not_mem_empty leaf),
      fun leaf hleaf => ?_⟩
    · simp only
      split
      · exact h.entries
      · refine Regular.stack_append h.entries (.errorNode (.leafTrees h.skipped) _) ?_
        rw [frontier_errorNode, frontier_leafTrees]
        exact h.ends
    · contradiction

private theorem push (h : m.Regular l) {leaf : Leaf} (read : ReadAs l leaf)
    (proper : l.isExtra leaf.kind = false) (next tokens : Nat) :
    (m.push next (.leaf leaf) tokens).Regular l := by
  refine ⟨fun e he => ?_, nofun, h.skipped, h.ends⟩
  change e ∈ (m.stack.push _).entries at he
  rw [Stack.entries_push] at he
  rcases List.mem_append.1 he with he | he
  · exact h.entries e he
  · rw [List.mem_singleton.1 he]
    have helements :
        ((m.pending.map fun l => ((none, .leaf l) : Element)).push (none, .leaf leaf)).toList =
          ((m.pending.toList ++ [leaf]).map Tree.leaf).map Stack.bare := by
      simp [Stack.bare, Function.comp_def]
    change Parse.Regular l (Array.toList _)
    rw [helements]
    refine .bare (fun t ht => ?_) ?_
    · obtain ⟨x, hx, rfl⟩ := List.mem_map.1 ht
      rcases List.mem_append.1 hx with hx | hx
      · exact .leaf (h.pending x (Array.mem_toList_iff.1 hx))
      · rw [List.mem_singleton.1 hx]
        exact .leaf read
    · rw [forestFrontier_leaves]
      exact endsProper_concat proper

private theorem reduced (h : m.Regular l) {info : Table.ProductionInfo}
    (nonterminal : l.isTerminal info.lhs = false) (next : Nat) :
    (m.reduced l info next).Regular l := by
  have hentries := h.entries
  rw [← Stack.entries_uncovered m.stack info.fields.size] at hentries
  refine ⟨fun e he => ?_, h.pending, h.skipped, h.ends⟩
  change e ∈ (m.stack.reduce l info next).entries at he
  rw [Stack.reduce_eq, Stack.entries_push] at he
  rcases List.mem_append.1 he with he | he
  · exact hentries e (List.mem_append_left _ he)
  · rw [List.mem_singleton.1 he]
    have hhandle : Parse.Regular l (m.stack.handle l info).toList :=
      .labelAll (fun e he => hentries e (List.mem_append_right _ he)) _
    exact hhandle.reduced nonterminal _

private theorem resume (h : m.Regular l) {p : Nat → Bool} {popped : List Entry} {stack : Stack}
    (found : m.stack.unwindTo? p = some (popped, stack)) :
    (m.failed.resume popped stack).Regular l := by
  have hentries := h.entries
  rw [← Stack.entries_unwindTo? found] at hentries
  obtain ⟨hmade, hends⟩ := Regular.trees fun e he => hentries e (List.mem_append_right _ he)
  refine ⟨?_, h.pending, nofun, nofun⟩
  refine Regular.stack_append (fun e he => hentries e (List.mem_append_left _ he))
    (.errorNode (fun t ht => ?_) _) ?_
  · rcases List.mem_append.1 ht with ht | ht
    · exact hmade t ht
    · exact WellMade.leafTrees h.skipped t ht
  · rw [frontier_errorNode, forestFrontier_append, frontier_leafTrees]
    exact hends.append h.ends

private theorem skip (h : m.Regular l) {leaf : Leaf} (read : ReadAs l leaf)
    (proper : l.isExtra leaf.kind = false) :
    (m.failed.skip leaf).Regular l := by
  refine ⟨h.entries, nofun, fun other hother => ?_, ?_⟩
  · rcases Array.mem_push.1 hother with hother | rfl
    · rcases Array.mem_append.1 hother with hother | hother
      · exact h.skipped other hother
      · exact h.pending other hother
    · exact read
  · change EndsProper l (((m.recovery.skipped ++ m.pending).push leaf).toList)
    rw [Array.toList_push]
    exact endsProper_concat proper

private theorem trees (h : m.Regular l) : ∀ t ∈ m.stack.trees, WellMade l t :=
  (Parse.Regular.trees h.entries).1

private theorem accept (h : m.Regular l) : RootMade l (m.flush.accept l.start).root :=
  .root h.flush.trees (.leafTrees h.flush.pending)

private theorem abandon (h : m.Regular k.language) (hjob : job.Scratch k) :
    RootMade k.language (m.abandon job).root := by
  unfold Machine.abandon
  rw [hjob.language]
  refine .failedRoot fun t ht => ?_
  rcases List.mem_append.1 ht with ht | ht
  · exact h.trees t ht
  · split at ht
    · contradiction
    · rw [List.mem_singleton.1 ht]
      refine .errorNode (.leafTrees fun leaf hleaf => ?_) _
      rcases Array.mem_append.1 hleaf with hleaf | hleaf
      · rcases Array.mem_append.1 hleaf with hleaf | hleaf
        · exact h.skipped leaf hleaf
        · exact h.pending leaf hleaf
      · obtain ⟨token, htoken, rfl⟩ := Array.mem_map.1 hleaf
        refine hjob.readAs (List.mem_map_of_mem (Array.mem_toList_iff.2 ?_))
        rw [Array.mem_extract_iff_getElem] at htoken
        obtain ⟨i, hi, rfl⟩ := htoken
        exact Array.getElem_mem _

private theorem failed (h : m.Regular l) : m.failed.Regular l :=
  ⟨h.entries, h.pending, h.skipped, h.ends⟩

end Machine.Regular

/-- A step keeps what nodes can be made of, and ends with a root as it should be. -/
theorem Job.Scratch.regular_of_act (hjob : job.Scratch k) (hword : k.language.WordApart)
    {progress : Progress} (hact : Act job m progress) (hat : job.AtToken m)
    (h : m.Regular k.language) :
    progress.Satisfies (Machine.Regular k.language) fun o => RootMade k.language o.root := by
  have hproper {leaf : Leaf} (here : job.leaf? m.position = some leaf) :
      k.language.isExtra leaf.kind = false := by
    rw [← hjob.language]
    exact hat leaf here
  cases hact with
  | reuse found =>
    rw [hjob.reusable?] at found
    contradiction
  | @shift leaf kind next fresh here action =>
    have hmem := Job.Scratch.mem_of_leaf? here
    have hlexed : leaf.lexedKind = leaf.kind := congrArg Leaf.kind (hjob.lexed leaf hmem)
    rw [hjob.language] at action
    exact h.flush.push
      (readAs_reinterpret (hjob.readAs hmem) (by rw [hlexed]; exact hproper here) action)
      (hword.of_actionFor (hproper here) action) next 1
  | @reduce kind production info next fresh action applies room =>
    obtain ⟨hinfo, -⟩ := Job.reduction?_eq_some_iff.1 applies
    rw [hjob.language] at hinfo ⊢
    obtain ⟨p, hp, hlhs, -⟩ := k.tableBuilt.of_productions hinfo
    refine h.reduced (k.nonterminal_iff.2 ?_) next
    rw [hlhs]
    exact (k.wellFormed.lhs production p hp).1
  | accept =>
    rw [hjob.language]
    exact h.accept
  | resume _ _ found => exact h.resume found
  | skip _ here => exact h.skip (hjob.readAs (Job.Scratch.mem_of_leaf? here)) (hproper here)
  | giveUp => exact h.failed.abandon hjob
  | stuck => exact h.abandon hjob
  | overrun => exact h.abandon hjob
  | shiftAtEnd => exact h.flush.abandon hjob

/-- A run from scratch ends with a root as it should be. -/
theorem Job.Scratch.rootMade_run (hjob : job.Scratch k) (hword : k.language.WordApart) :
    RootMade k.language (job.run {}).root := by
  let good (o : Outcome) : Prop := RootMade k.language o.root
  change good (job.run {})
  exact Job.run_of_invariant (fun m hm => hjob.regular_of_act hword (Job.step_cases job m)
    (Job.atToken_collectExtras job m) (hm.collectExtras hjob)) (Machine.Regular.start k.language)

end Parse

/-- The tree of a text has nodes for visible rules and errors only, no extras at the ends of rules,
no fields on extras and errors, and tokens as they were lexed or read as the word. -/
theorem wellFormed_parse (k : Compilation) (hword : k.language.WordApart) {p : Parser}
    (hp : p.language = k.language) (source : Bytes) :
    (p.parse source).root.WellFormed k.language := by
  rw [Parser.root_parse]
  exact ((Parser.scratch_job k hp source).rootMade_run hword).wellFormed

theorem wellFormed_parse_keywords : (Compilation.keyword .canonical).language.WordApart ∧
    ((Keyword.parser .canonical).parse #[107, 107, 107]).root.WellFormed
      (Compilation.keyword .canonical).language :=
  ⟨Keyword.wordApart .canonical,
    wellFormed_parse (.keyword .canonical) (Keyword.wordApart .canonical)
    (p := Keyword.parser .canonical) rfl #[107, 107, 107]⟩

end Reparse
