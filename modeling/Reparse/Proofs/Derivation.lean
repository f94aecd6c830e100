import Mathlib.Logic.Relation
import Reparse.Proofs.Stack
import Reparse.Proofs.Search

/-! # Derivations of a flat grammar, and the trees that record them -/
namespace Reparse.Grammar

/-- Replaces one left-hand side by a right-hand side of it. -/
inductive Rewrites (g : Flat) : List Kind → List Kind → Prop
  | step {q : Nat} {p : Production} (hp : g.productions[q]? = some p) (before after : List Kind) :
      Rewrites g (before ++ p.lhs :: after) (before ++ (p.steps.map (·.symbol) ++ after))

/-- Any number of replacements. -/
abbrev Derives (g : Flat) : List Kind → List Kind → Prop := Relation.ReflTransGen (Rewrites g)

variable {g : Flat} {a b c d : List Kind}

private theorem Rewrites.context (h : Rewrites g a b) (before after : List Kind) :
    Rewrites g (before ++ a ++ after) (before ++ b ++ after) := by
  cases h with
  | @step q p hp before' after' =>
    have hstep := Rewrites.step hp (before ++ before') (after' ++ after)
    simpa using hstep

theorem Derives.context (h : Derives g a b) (before after : List Kind) :
    Derives g (before ++ a ++ after) (before ++ b ++ after) := by
  induction h with
  | refl => exact .refl
  | tail _ hstep ih => exact ih.tail (hstep.context before after)

theorem Derives.append (h : Derives g a b) (h' : Derives g c d) : Derives g (a ++ c) (b ++ d) := by
  have hleft := h.context [] c
  have hright := h'.context b []
  simp only [List.nil_append, List.append_nil] at hleft hright
  exact hleft.trans hright

theorem derives_of_production {q : Nat} {p : Production} (hp : g.productions[q]? = some p) :
    Derives g [p.lhs] (p.steps.map (·.symbol)) := by
  have hstep := Rewrites.step hp [] []
  simp only [List.nil_append, List.append_nil] at hstep
  exact .single hstep

/-- Derivations from left to right: each symbol is kept or replaced. -/
inductive Yields (g : Flat) : List Kind → List Kind → Prop
  | nil : Yields g [] []
  | keep (k : Kind) {a w : List Kind} (rest : Yields g a w) : Yields g (k :: a) (k :: w)
  | expand {q : Nat} {p : Production} {a w : List Kind} (hp : g.productions[q]? = some p)
      (rest : Yields g (p.steps.map (·.symbol) ++ a) w) : Yields g (p.lhs :: a) w

theorem Yields.refl (a : List Kind) : Yields g a a := by
  induction a with
  | nil => exact .nil
  | cons k rest ih => exact .keep k ih

theorem Yields.append {w v : List Kind} (h : Yields g a w) (h' : Yields g b v) :
    Yields g (a ++ b) (w ++ v) := by
  induction h with
  | nil => exact h'
  | keep k rest ih => exact .keep k ih
  | expand hp rest ih =>
    rw [List.append_assoc] at ih
    exact .expand hp ih

private theorem Yields.of_rewrites {w : List Kind} (h : Rewrites g a b) (hb : Yields g b w) :
    Yields g a w := by
  cases h with
  | @step q p hp before after =>
    generalize hsource : before ++ (p.steps.map (·.symbol) ++ after) = source at hb
    induction hb generalizing before with
    | nil =>
      simp only [List.append_eq_nil_iff] at hsource
      obtain ⟨rfl, hsteps, rfl⟩ := hsource
      refine .expand hp ?_
      rw [hsteps]
      exact .nil
    | @keep k a w rest ih =>
      cases before with
      | nil =>
        refine .expand hp ?_
        rw [List.nil_append] at hsource
        rw [hsource]
        exact .keep k rest
      | cons x before =>
        rw [List.cons_append, List.cons.injEq] at hsource
        rw [hsource.1]
        exact .keep k (ih before hsource.2)
    | @expand q' p' a w hp' rest ih =>
      cases before with
      | nil =>
        refine .expand hp ?_
        rw [List.nil_append] at hsource
        rw [hsource]
        exact .expand hp' rest
      | cons x before =>
        rw [List.cons_append, List.cons.injEq] at hsource
        rw [hsource.1]
        have hbefore :=
          ih (p'.steps.map (·.symbol) ++ before) (by rw [← hsource.2, List.append_assoc])
        rw [List.append_assoc] at hbefore
        exact .expand hp' hbefore

theorem yields_of_derives (h : Derives g a b) : Yields g a b := by
  induction h using Relation.ReflTransGen.head_induction_on with
  | refl => exact .refl b
  | head hstep _ ih => exact .of_rewrites hstep ih

end Grammar

namespace Parse
open Grammar Reparse.Tree

/-! ## Trees of derivations -/

/-- Gives a field to a child that has none. -/
def inherit (field : Option Field) (child : Element) : Element := (child.1 <|> field, child.2)

@[simp] theorem inherit_none (child : Element) : inherit none child = child := by
  simp [inherit]

@[simp] theorem map_inherit_none (children : List Element) :
    children.map (inherit none) = children :=
  (List.map_congr_left fun child _ => inherit_none child).trans (List.map_id' _)

/-- Children that a right-hand side stands for. A hidden rule has the children of one of its own
right-hand sides in its place, and its field where they have none. -/
inductive Spliced (l : Language) (g : Flat) : List Step → List Element → Prop
  | nil : Spliced l g [] []
  | terminal {s : Step} {rest : List Step} {leaf : Leaf} {children : List Element}
      (terminal : g.isTerminal s.symbol = true) (kind : leaf.kind = s.symbol)
      (more : Spliced l g rest children) :
      Spliced l g (s :: rest) ((s.field, .leaf leaf) :: children)
  | visible {s : Step} {rest : List Step} {node : Tree} {children : List Element}
      (nonterminal : g.isTerminal s.symbol = false) (visible : l.isVisible s.symbol = true)
      (isNode : node.isNode = true) (kind : node.kind = s.symbol)
      (more : Spliced l g rest children) : Spliced l g (s :: rest) ((s.field, node) :: children)
  | hidden {s : Step} {rest : List Step} {q : Nat} {p : Production} {inner children : List Element}
      (nonterminal : g.isTerminal s.symbol = false) (hidden : l.isVisible s.symbol = false)
      (hp : g.productions[q]? = some p) (lhs : p.lhs = s.symbol)
      (splice : Spliced l g p.steps inner) (more : Spliced l g rest children) :
      Spliced l g (s :: rest) (inner.map (inherit s.field) ++ children)

/-- The children that are no extras. -/
def proper (l : Language) (children : List Element) : List Element :=
  children.filter fun e => !l.isTrivia e.2

theorem proper_append (l : Language) (a b : List Element) :
    proper l (a ++ b) = proper l a ++ proper l b :=
  List.filter_append ..

/-- A tree of a derivation: the proper children of each node are spliced from a right-hand side of
its kind. -/
inductive Derived (l : Language) (g : Flat) : Tree → Prop
  | leaf (leaf : Leaf) : Derived l g (.leaf leaf)
  | node {info : NodeInfo} {children : List Tree} {q : Nat} {p : Production}
      (hp : g.productions[q]? = some p) (lhs : p.lhs = info.kind)
      (spliced : Spliced l g p.steps (proper l (Tree.node info children).labelledChildren))
      (below : ∀ c ∈ children, Derived l g c) : Derived l g (.node info children)

/-- The kinds of the leaves that are no extras. -/
def kindsOf (l : Language) (leaves : List Leaf) : List Kind :=
  (leaves.filter fun leaf => !l.isExtra leaf.kind).map (·.kind)

theorem kindsOf_append (l : Language) (a b : List Leaf) :
    kindsOf l (a ++ b) = kindsOf l a ++ kindsOf l b := by
  simp [kindsOf]

variable {l : Language} {g : Flat}

/-- Extras among the children add nothing. -/
theorem kindsOf_proper (children : List Element) :
    kindsOf l (forestFrontier ((proper l children).map (·.2))) =
      kindsOf l (forestFrontier (children.map (·.2))) := by
  induction children with
  | nil => rfl
  | cons c rest ih =>
    rw [List.map_cons, forestFrontier, kindsOf_append, ← ih]
    unfold proper
    rw [List.filter_cons]
    split
    · rw [List.map_cons, forestFrontier, kindsOf_append]
    · next htrivia =>
      have hnone : kindsOf l c.2.frontier = [] := by
        obtain ⟨field, t⟩ := c
        cases t with
        | leaf leaf =>
          have hextra : l.isExtra leaf.kind = true := by simpa [Language.isTrivia] using htrivia
          simp [kindsOf, Tree.frontier, hextra]
        | node info children => simp [Language.isTrivia] at htrivia
      rw [hnone, List.nil_append]

/-- A right-hand side derives what its children derive. -/
theorem derives_of_spliced {steps : List Step} {children : List Element}
    (h : Spliced l g steps children) (hleaf : ∀ e ∈ children, l.isTrivia e.2 = false)
    (hnode : ∀ e ∈ children, e.2.isNode = true → Derives g [e.2.kind] (kindsOf l e.2.frontier)) :
    Derives g (steps.map (·.symbol)) (kindsOf l (forestFrontier (children.map (·.2)))) := by
  induction h with
  | nil => exact .refl
  | @terminal s rest leaf children _ kind more ih =>
    have hextra : l.isExtra leaf.kind = false := hleaf (s.field, .leaf leaf) List.mem_cons_self
    have hrest := ih (fun e he => hleaf e (List.mem_cons_of_mem _ he)) fun e he =>
      hnode e (List.mem_cons_of_mem _ he)
    have hfirst : kindsOf l [leaf] = [s.symbol] := by
      rw [kindsOf, List.filter_cons_of_pos (by rw [hextra]; rfl), List.filter_nil,
        List.map_singleton, kind]
    rw [List.map_cons, List.map_cons, forestFrontier, kindsOf_append, Tree.frontier, hfirst]
    change Derives g ([s.symbol] ++ _) _
    exact Derives.append .refl hrest
  | @visible s rest node children _ _ isNode kind more ih =>
    have hrest := ih (fun e he => hleaf e (List.mem_cons_of_mem _ he)) fun e he =>
      hnode e (List.mem_cons_of_mem _ he)
    have hfirst := hnode (s.field, node) List.mem_cons_self isNode
    rw [kind] at hfirst
    rw [List.map_cons, List.map_cons, forestFrontier, kindsOf_append]
    exact Derives.append hfirst hrest
  | @hidden s rest q p inner children _ _ hp lhs splice more ihinner ih =>
    have htrees : (inner.map (inherit s.field)).map (·.2) = inner.map (·.2) := by
      rw [List.map_map]
      rfl
    have hinner {e : Element} (he : e ∈ inner) : (inherit s.field e) ∈
        inner.map (inherit s.field) ++ children :=
      List.mem_append_left _ (List.mem_map_of_mem he)
    have hsplice := ihinner (fun e he => hleaf (inherit s.field e) (hinner he)) fun e he =>
      hnode (inherit s.field e) (hinner he)
    have hrest := ih (fun e he => hleaf e (List.mem_append_right _ he)) fun e he =>
      hnode e (List.mem_append_right _ he)
    have hlhs := derives_of_production hp
    rw [lhs] at hlhs
    rw [List.map_cons, List.map_append, htrees, forestFrontier_append, kindsOf_append]
    exact Derives.append (hlhs.trans hsplice) hrest

/-- A derivation tree shows what its kind derives. -/
theorem Derived.derives {t : Tree} (h : Derived l g t) (hnode : t.isNode = true) :
    Derives g [t.kind] (kindsOf l t.frontier) := by
  induction h with
  | leaf leaf => contradiction
  | @node info children q p hp lhs spliced below ih =>
    have hsteps :=
      derives_of_spliced spliced (fun e he => by simpa [proper] using (List.mem_filter.1 he).2)
      (fun e he hn => by
        have hmem := List.mem_map_of_mem (f := (·.2)) (List.mem_filter.1 he).1
        rw [labelledChildren_snd] at hmem
        exact ih e.2 hmem hn)
    rw [kindsOf_proper, labelledChildren_snd] at hsteps
    have hlhs := derives_of_production hp
    rw [lhs] at hlhs
    exact hlhs.trans hsteps

/-! ## Splicing piece by piece -/

/-- A symbol with the children that stand for it takes the place of the first step. -/
theorem Spliced.cons {k : Kind} {first : List Element} (h : Spliced l g [{ symbol := k }] first)
    {s : Step} (hs : s.symbol = k) {rest : List Step} {children : List Element}
    (hrest : Spliced l g rest children) :
    Spliced l g (s :: rest) (first.map (inherit s.field) ++ children) := by
  cases h with
  | terminal terminal kind more =>
    cases more
    exact .terminal (by rwa [hs]) (by rwa [hs]) hrest
  | visible nonterminal visible isNode kind more =>
    cases more
    exact .visible (by rwa [hs]) (by rwa [hs]) isNode (by rwa [hs]) hrest
  | @hidden _ _ q p inner _ nonterminal hidden hp lhs splice more =>
    cases more
    have hinner : (inner.map (inherit none) ++ []).map (inherit s.field) =
        inner.map (inherit s.field) := by
      rw [map_inherit_none, List.append_nil]
    rw [hinner]
    exact .hidden (by rwa [hs]) (by rwa [hs]) hp (by rwa [hs]) splice hrest

end Parse
end Reparse
