import Reparse.Proofs.Grounding
import Reparse.Proofs.Survey

/-! # What reductions make of entries without errors -/
namespace Reparse.Parse
open Grammar Reparse.Tree

theorem isErrorNode_eq_false {t : Tree} (h : t.Consistent) (hclean : t.hasError = false) :
    t.isErrorNode = false := by
  cases h with
  | leaf leaf => rfl
  | @node kind children fields state isError below =>
    change (infoOf kind children fields state isError).hasError = false at hclean
    change (infoOf kind children fields state isError).isError = false
    rw [hasError_infoOf, Bool.or_eq_false_iff] at hclean
    rw [isError_infoOf]
    exact hclean.1

theorem hasError_eq_false {t : Tree} (h : t.Consistent) (hnode : t.isNode = true)
    (herror : t.isErrorNode = false) (hclean : ∀ c ∈ t.children, c.hasError = false) :
    t.hasError = false := by
  cases h with
  | leaf leaf => contradiction
  | @node kind children fields state isError below =>
    change (infoOf kind children fields state isError).isError = false at herror
    change (infoOf kind children fields state isError).hasError = false
    rw [isError_infoOf] at herror
    rw [hasError_infoOf, herror, Bool.false_or, List.any_eq_false]
    intro c hc
    rw [hclean c hc]
    exact nofun

theorem hasError_branchOf (kind : Kind) (elements : List Element) (state : Nat) :
    (branchOf kind elements state).hasError = (elements.map (·.2)).any hasError := by
  change (infoOf kind (elements.map (·.2)) (indexedFields elements) state false).hasError = _
  rw [hasError_infoOf, Bool.false_or]

theorem hasError_errorNode (ts : List Tree) (state : Nat) :
    (Tree.errorNode ts state).hasError = true := hasError_infoOf

theorem hasError_failedRoot (kind : Kind) (ts : List Tree) :
    (Tree.failedRoot kind ts).hasError = true := hasError_infoOf

theorem kind_branchOf (kind : Kind) (elements : List Element) (state : Nat) :
    (branchOf kind elements state).kind = kind :=
  kind_infoOf

variable {l : Language}

theorem takesField_of_trivia {t : Tree} (h : l.isTrivia t = true) : takesField l t = false := by
  cases t with
  | leaf leaf =>
    change l.isExtra leaf.kind = true at h
    simp [takesField, h]
  | node info children => contradiction

/-- Without errors, everything but extras takes a field. -/
private theorem takesField_of_sane {t : Tree} (hproper : l.isTrivia t = false) (h : t.Consistent)
    (hclean : t.hasError = false) :
    takesField l t = true := by
  have hnode := isErrorNode_eq_false h hclean
  cases t with
  | leaf leaf =>
    change leaf.isError = false at hclean
    change l.isExtra leaf.kind = false at hproper
    simp [takesField, hproper, hclean]
  | node info children =>
    change info.isError = false at hnode
    simp [takesField, hnode]

theorem isTrivia_inherit (field : Option Field) (e : Element) :
    l.isTrivia (inherit field e).2 = l.isTrivia e.2 := rfl

/-- Proper elements inherit the field of their step. -/
private theorem proper_label {elements : Array Element} (hclean : Clean l (treesOf elements))
    (hconsistent : AllConsistent (treesOf elements)) (field : Option Field) :
    proper l (label l elements field).toList = (proper l elements.toList).map (inherit field) := by
  cases field with
  | none =>
    rw [map_inherit_none]
    rfl
  | some f =>
    have hlabel : ∀ e ∈ elements.toList,
        (if e.1.isNone && takesField l e.2 then (some f, e.2) else e) =
          if l.isTrivia e.2 then e else inherit (some f) e := by
      intro e he
      have hmem : e.2 ∈ treesOf elements := List.mem_map_of_mem he
      cases htrivia : l.isTrivia e.2 with
      | true => simp [takesField_of_trivia htrivia]
      | false =>
        rw [takesField_of_sane htrivia (hconsistent _ hmem) (hclean _ hmem htrivia)]
        obtain ⟨field, t⟩ := e
        cases field with
        | none => rfl
        | some f' => rfl
    rw [label, Array.toList_map, List.map_congr_left hlabel]
    generalize elements.toList = es
    induction es with
    | nil => rfl
    | cons e rest ih =>
      cases htrivia : l.isTrivia e.2 with
      | true => simpa [proper, htrivia] using ih
      | false => simpa [proper, htrivia, isTrivia_inherit] using ih

private theorem Clean.subset {a b : List Tree} (h : Clean l a) (hsub : b ⊆ a) : Clean l b :=
  fun t ht => h t (hsub ht)

variable {k : Compilation}

/-- Entries for the steps of a right-hand side are spliced together with the fields of the steps. -/
theorem spliced_of_reads {steps : List Step} {entries : List Entry}
    (h : List.Forall₂ (fun step e => Entry.Reads k step.symbol e) steps entries)
    (hclean : Clean k.language (entries.flatMap (·.trees)))
    (hconsistent : AllConsistent (entries.flatMap (·.trees))) :
    Spliced k.language k.flat steps
      (proper k.language (labelAll k.language entries (steps.map (·.field))).toList) := by
  rw [toList_labelAll]
  induction h with
  | nil => exact .nil
  | @cons step e steps entries hreads hrest ih =>
    rw [List.flatMap_cons] at hclean hconsistent
    have hfirst := hclean.subset (List.subset_append_left e.trees _)
    rw [List.map_cons, List.zip_cons_cons, List.flatMap_cons, proper_append,
      proper_label hfirst (hconsistent.subset (List.subset_append_left e.trees _))]
    exact (hreads hfirst).cons rfl
      (ih (hclean.subset (List.subset_append_right _ _))
      (hconsistent.subset (List.subset_append_right _ _)))

theorem proper_eq_nil_iff {es : List Element} :
    proper l es = [] ↔ ∀ e ∈ es, l.isTrivia e.2 = true := by
  simp [proper]

theorem proper_eq_nil {es : List Element} (h : ∀ e ∈ es, l.isTrivia e.2 = true) :
    proper l es = [] :=
  proper_eq_nil_iff.2 h

/-- Extras at the start are no proper elements. -/
private theorem proper_dropWhile (es : List Element) :
    proper l (es.dropWhile fun e => l.isTrivia e.2) = proper l es := by
  have hnil : proper l (es.takeWhile fun e => l.isTrivia e.2) = [] :=
    proper_eq_nil fun e he => List.all_eq_true.1 List.all_takeWhile e he
  conv =>
    rhs; rw [← List.takeWhile_append_dropWhile (p := fun e : Element => l.isTrivia e.2) (l := es)]
  rw [proper_append, hnil, List.nil_append]

theorem reduced_visible {lhs : Kind} (h : l.isVisible lhs = true) (elements : Array Element)
    (state : Nat) :
    (reduced l lhs elements state).toList = elements.toList.takeWhile (fun e => l.isTrivia e.2) ++
      [(none, branchOf lhs (elements.toList.dropWhile fun e => l.isTrivia e.2) state)] := by
  unfold reduced
  rw [if_pos h]
  simp

theorem reduced_hidden {lhs : Kind} (h : l.isVisible lhs = false) (elements : Array Element)
    (state : Nat) :
    reduced l lhs elements state = elements := by
  unfold reduced
  rw [h]
  rfl

/-- A reduction without errors had none in what it took. -/
private theorem clean_of_reduced {lhs : Kind} {elements : Array Element} {state : Nat}
    (h : Clean l (treesOf (reduced l lhs elements state))) : Clean l (treesOf elements) := by
  cases hvisible : l.isVisible lhs with
  | false => rwa [reduced_hidden hvisible] at h
  | true =>
    rw [treesOf, reduced_visible hvisible, List.map_append] at h
    have hbranch :=
      h (branchOf lhs (elements.toList.dropWhile fun e => l.isTrivia e.2) state) (by simp) rfl
    rw [hasError_branchOf, List.any_eq_false] at hbranch
    intro t ht htrivia
    rw [treesOf, ← List.takeWhile_append_dropWhile (p := fun e : Element => l.isTrivia e.2)
      (l := elements.toList), List.map_append] at ht
    rcases List.mem_append.1 ht with ht | ht
    · exact h t (List.mem_append_left _ ht) htrivia
    · simpa using hbranch t ht

/-- What a reduction pushes reads its left-hand side. -/
theorem reads_reduced {q : Nat} {p : Production} (hp : k.flat.productions[q]? = some p)
    {elements : Array Element}
    (h : Clean k.language (treesOf elements) →
      Spliced k.language k.flat p.steps (proper k.language elements.toList))
    (next state : Nat) : Entry.Reads k p.lhs ⟨next, reduced k.language p.lhs elements state⟩ := by
  intro hclean
  have hspliced := h (clean_of_reduced hclean)
  have hnonterminal : k.flat.isTerminal p.lhs = false := by
    have hle := (k.wellFormed.lhs q p hp).1
    simpa [Flat.isTerminal] using hle
  cases hvisible : k.language.isVisible p.lhs with
  | false =>
    simp only [reduced_hidden hvisible]
    have hsplice :=
      Spliced.hidden (s := { symbol := p.lhs }) hnonterminal hvisible hp rfl hspliced .nil
    rwa [map_inherit_none, List.append_nil] at hsplice
  | true =>
    simp only [reduced_visible hvisible]
    have hnil : proper k.language (elements.toList.takeWhile fun e => k.language.isTrivia e.2) =
        [] :=
      proper_eq_nil fun e he => List.all_eq_true.1 List.all_takeWhile e he
    rw [proper_append, hnil, List.nil_append]
    exact .visible hnonterminal hvisible rfl (kind_branchOf ..) .nil

/-! ## Trees whose parts without errors are derivations -/

/-- Every part without errors is a tree of a derivation. -/
inductive Tidy (k : Compilation) : Tree → Prop
  | leaf (leaf : Leaf) : Tidy k (.leaf leaf)
  | node {info : NodeInfo} {children : List Tree}
      (derived : info.hasError = false → Derived k.language k.flat (.node info children))
      (below : ∀ c ∈ children, Tidy k c) : Tidy k (.node info children)

namespace Tidy

theorem derived {t : Tree} (h : Tidy k t) (hclean : t.hasError = false) :
    Derived k.language k.flat t := by
  cases h with
  | leaf leaf => exact .leaf leaf
  | node derived below => exact derived hclean

theorem children {t : Tree} (h : Tidy k t) : ∀ c ∈ t.children, Tidy k c := by
  cases h with
  | leaf leaf =>
    intro c hc
    contradiction
  | node derived below => exact below

theorem errorNode {ts : List Tree} (h : ∀ t ∈ ts, Tidy k t) (state : Nat) :
    Tidy k (.errorNode ts state) := by
  refine .node (fun hclean => ?_) h
  exact absurd hclean (by rw [hasError_infoOf]; exact nofun)

theorem failedRoot {ts : List Tree} (h : ∀ t ∈ ts, Tidy k t) (kind : Kind) :
    Tidy k (.failedRoot kind ts) := by
  refine .node (fun hclean => ?_) h
  exact absurd hclean (by rw [hasError_infoOf]; exact nofun)

theorem branchOf {kind : Kind} {elements : List Element} {state : Nat}
    (h : ∀ t ∈ elements.map (·.2), Tidy k t)
    (hspliced : (∀ t ∈ elements.map (·.2), t.hasError = false) → ∃ (q : Nat) (p : Production),
      k.flat.productions[q]? = some p ∧ p.lhs = kind ∧
      Spliced k.language k.flat p.steps (proper k.language elements)) :
    Tidy k (branchOf kind elements state) := by
  refine .node (fun hclean => ?_) h
  have hchildren : ∀ t ∈ elements.map (·.2), t.hasError = false := by
    rw [hasError_infoOf, Bool.false_or, List.any_eq_false] at hclean
    intro t ht
    simpa using hclean t ht
  obtain ⟨q, p, hp, lhs, hspliced⟩ := hspliced hchildren
  refine .node hp (lhs.trans kind_infoOf.symm) ?_ fun c hc => (h c hc).derived (hchildren c hc)
  have hlabelled := labelledChildren_branchOf kind elements state
  unfold Parse.branchOf Tree.branch at hlabelled
  rwa [hlabelled]

/-- What a reduction pushes. -/
theorem reduced {q : Nat} {p : Production} (hp : k.flat.productions[q]? = some p)
    {elements : Array Element} (h : ∀ t ∈ treesOf elements, Tidy k t)
    (hspliced : Clean k.language (treesOf elements) →
      Spliced k.language k.flat p.steps (proper k.language elements.toList))
    (state : Nat) :
    ∀ t ∈ treesOf (reduced k.language p.lhs elements state), Tidy k t := by
  cases hvisible : k.language.isVisible p.lhs with
  | false => rwa [reduced_hidden hvisible]
  | true =>
    have hsplit : elements.toList.takeWhile (fun e => k.language.isTrivia e.2) ++
        elements.toList.dropWhile (fun e => k.language.isTrivia e.2) = elements.toList :=
      List.takeWhile_append_dropWhile
    intro t ht
    rw [treesOf, ← hsplit, List.map_append] at h
    rw [treesOf, reduced_visible hvisible, List.map_append] at ht
    rcases List.mem_append.1 ht with ht | ht
    · exact h t (List.mem_append_left _ ht)
    · rw [List.mem_singleton.1 ht]
      refine .branchOf (fun t ht => h t (List.mem_append_right _ ht)) fun hclean =>
        ⟨q, p, hp, rfl, ?_⟩
      rw [proper_dropWhile]
      refine hspliced fun u hu htrivia => ?_
      rw [treesOf, ← hsplit, List.map_append] at hu
      rcases List.mem_append.1 hu with hu | hu
      · obtain ⟨e, he, rfl⟩ := List.mem_map.1 hu
        have htrue :=
          List.all_eq_true.1 (List.all_takeWhile (p := fun e : Element => k.language.isTrivia e.2))
            e he
        rw [htrivia] at htrue
        contradiction
      · exact hclean u hu

theorem occurs {ts : List Tree} {i : Nat} {t : Tree} (h : Occurs ts i t)
    (hts : ∀ u ∈ ts, Tidy k u) : Tidy k t := by
  induction h with
  | here => exact hts _ List.mem_cons_self
  | @inside info children rest i t below ih =>
    have hnode : Tidy k (.node info children) := hts _ List.mem_cons_self
    cases hnode with
    | node derived hbelow => exact ih hbelow
  | later behind ih => exact ih fun u hu => hts u (List.mem_cons_of_mem _ hu)

theorem leafTrees (leaves : Array Leaf) : ∀ t ∈ leafTrees leaves, Tidy k t := by
  intro t ht
  obtain ⟨leaf, -, rfl⟩ := List.mem_map.1 ht
  exact .leaf leaf

end Tidy
end Reparse.Parse
