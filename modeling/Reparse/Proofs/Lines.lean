import Reparse.Proofs.Segments
import Reparse.Proofs.Survey

/-! # Lines of tokens -/
namespace Reparse
open Parse

namespace Tree

mutual
/-- The leaves of a tree as the lexer found them, each with whether it is an error or stands in an
error node. -/
def line (inError : Bool) : Tree → List (Leaf × Bool)
  | .leaf l => [(l.asLexed, inError || l.isError)]
  | .node info children => forestLine (inError || info.isError) children

def forestLine (inError : Bool) : List Tree → List (Leaf × Bool)
  | [] => []
  | t :: rest => t.line inError ++ forestLine inError rest
end

@[simp] theorem forestLine_append (inError : Bool) (a b : List Tree) :
    forestLine inError (a ++ b) = forestLine inError a ++ forestLine inError b := by
  induction a with
  | nil => rfl
  | cons t rest ih => simp only [List.cons_append, forestLine, ih, List.append_assoc]

theorem forestLine_leaves (inError : Bool) (ls : List Leaf) :
    forestLine inError (ls.map .leaf) = ls.map fun x => (x.asLexed, inError || x.isError) := by
  induction ls with
  | nil => rfl
  | cons x rest ih => simp only [List.map_cons, forestLine, line, ih, List.singleton_append]

mutual
private theorem line_fst (inError : Bool) :
    (t : Tree) → (t.line inError).map (·.1) = t.frontier.map Leaf.asLexed
  | .leaf _ => rfl
  | .node info children => forestLine_fst (inError || info.isError) children

theorem forestLine_fst (inError : Bool) : (ts : List Tree) →
    (forestLine inError ts).map (·.1) = (forestFrontier ts).map Leaf.asLexed
  | [] => rfl
  | t :: rest => by
    rw [forestLine, forestFrontier, List.map_append, List.map_append, line_fst, forestLine_fst]
end

theorem length_forestLine (inError : Bool) (ts : List Tree) :
    (forestLine inError ts).length = (forestFrontier ts).length := by
  simpa using congrArg List.length (forestLine_fst inError ts)

mutual
private theorem line_inError : (t : Tree) → t.line true = t.frontier.map fun x => (x.asLexed, true)
  | .leaf _ => rfl
  | .node _ children => forestLine_inError children

private theorem forestLine_inError :
    (ts : List Tree) → forestLine true ts = (forestFrontier ts).map fun x => (x.asLexed, true)
  | [] => rfl
  | t :: rest => by
    rw [forestLine, forestFrontier, List.map_append, line_inError, forestLine_inError]
end

/-- Nothing in a tree without errors is marked. -/
theorem line_clean {t : Tree} (h : t.Consistent) (hclean : t.hasError = false) :
    t.line false = t.frontier.map fun x => (x.asLexed, false) := by
  induction h with
  | leaf l =>
    change l.isError = false at hclean
    simp [line, frontier, hclean]
  | @node kind children fields state isError below ih =>
    change (infoOf kind children fields state isError).hasError = false at hclean
    rw [hasError_infoOf, Bool.or_eq_false_iff, List.any_eq_false] at hclean
    have hchildren : ∀ cs, (∀ c ∈ cs, c ∈ children) →
        forestLine false cs = (forestFrontier cs).map fun x => (x.asLexed, false) := by
      intro cs hcs
      induction cs with
      | nil => rfl
      | cons c rest ihc =>
        have hc := hcs c List.mem_cons_self
        rw [forestLine, forestFrontier, List.map_append, ih c hc (by simpa using hclean.2 c hc),
          ihc fun d hd => hcs d (List.mem_cons_of_mem _ hd)]
    rw [line, frontier, isError_infoOf, hclean.1, Bool.false_or, hchildren children fun c hc => hc]

theorem forestLine_clean {ts : List Tree} (h : AllConsistent ts)
    (hclean : ∀ t ∈ ts, t.hasError = false) :
    forestLine false ts = ((forestFrontier ts).map Leaf.asLexed).map (·, false) := by
  induction ts with
  | nil => rfl
  | cons t rest ih =>
    rw [forestLine, forestFrontier, List.map_append, List.map_append,
      line_clean (h t List.mem_cons_self) (hclean t List.mem_cons_self),
      ih (fun u hu => h u (List.mem_cons_of_mem _ hu)) fun u hu =>
        hclean u (List.mem_cons_of_mem _ hu)]
    simp only [List.map_map]
    rfl

/-- An occurrence is in one of two parts. -/
theorem Occurs.of_append {a b : List Tree} {i : Nat} {t : Tree} (h : Occurs (a ++ b) i t) :
    Occurs a i t ∨ ∃ j, i = (forestFrontier a).length + j ∧ Occurs b j t := by
  induction a generalizing i with
  | nil => exact .inr ⟨i, (Nat.zero_add i).symm, h⟩
  | cons u rest ih =>
    cases h with
    | here => exact .inl .here
    | inside below => exact .inl (.inside below)
    | later behind =>
      rcases ih behind with hrest | ⟨j, rfl, hb⟩
      · exact .inl (.later hrest)
      · refine .inr ⟨j, ?_, hb⟩
        rw [forestFrontier, List.length_append, Nat.add_assoc]

/-- Among leaves there is no node. -/
theorem Occurs.isNode_leaves {ls : List Leaf} {i : Nat} {t : Tree} (h : Occurs (ls.map .leaf) i t) :
    t.isNode = false := by
  induction ls generalizing i with
  | nil => cases h
  | cons x rest ih =>
    cases h with
    | here => rfl
    | later behind => exact ih behind

end Tree

namespace Parse
open Reparse.Tree Stack

variable {l : Language} {line line' : List (Leaf × Bool)} {ts us : List Tree} {next : Option Leaf}

/-- The first token that is no extra, with its mark. -/
def nextOf (l : Language) (line : List (Leaf × Bool)) : Option (Leaf × Bool) :=
  line.find? fun p => !l.isExtra p.1.kind

/-- The same tokens, some of which were marked since. -/
def Grows (line line' : List (Leaf × Bool)) : Prop :=
  List.Forall₂ (fun a b => a.1 = b.1 ∧ (b.2 = false → a.2 = false)) line line'

namespace Grows

theorem refl (line : List (Leaf × Bool)) : Grows line line :=
  List.forall₂_same.2 fun _ _ => ⟨rfl, id⟩

theorem append {more more' : List (Leaf × Bool)} (h : Grows line line') (hmore : Grows more more') :
    Grows (line ++ more) (line' ++ more') := List.rel_append h hmore

/-- What is closed into an error is marked. -/
theorem inError (ts : List Tree) :
    Grows (forestLine false ts) ((forestFrontier ts).map fun x => (x.asLexed, true)) := by
  have hfst := forestLine_fst false ts
  refine List.forall₂_iff_get.2 ⟨by simpa using congrArg List.length hfst, fun i hi hi' => ⟨?_, ?_⟩⟩
  · have hget := congrArg (·[i]?) hfst
    simp only [List.getElem?_map, List.getElem?_eq_getElem hi] at hget
    rw [List.length_map] at hi'
    rw [List.getElem?_eq_getElem hi'] at hget
    simpa using hget
  · simp

/-- An unmarked token was unmarked before. -/
theorem nextOf_eq (h : Grows line line') (hnext : nextOf l line' = next.map (·, false)) :
    nextOf l line = next.map (·, false) := by
  induction h with
  | nil => exact hnext
  | @cons a b line line' hab hrest ih =>
    obtain ⟨hleaf, hmark⟩ := hab
    simp only [nextOf, List.find?_cons, hleaf] at hnext ⊢
    cases hproper : !l.isExtra b.1.kind with
    | false =>
      rw [hproper] at hnext
      exact ih hnext
    | true =>
      rw [hproper] at hnext
      cases next with
      | none => contradiction
      | some x =>
        obtain rfl := Option.some.inj hnext
        exact congrArg some (Prod.ext hleaf (hmark rfl))

theorem drop (h : Grows line line') (n : Nat) : Grows (line.drop n) (line'.drop n) :=
  List.forall₂_drop n h

end Grows

theorem nextOf_append (line line' : List (Leaf × Bool)) :
    nextOf l (line ++ line') = (nextOf l line).or (nextOf l line') :=
  List.find?_append

theorem nextOf_unmarked (tokens : List Leaf) :
    nextOf l (tokens.map (·, false)) = (firstProper l tokens).map (·, false) := by
  rw [nextOf, List.find?_map, firstProper]
  rfl

private theorem line_branchOf (kind : Kind) (elements : List Element) (state : Nat) :
    (branchOf kind elements state).line false = forestLine false (elements.map (·.2)) := by
  change forestLine (false ||
      (infoOf kind (elements.map (·.2)) (indexedFields elements) state false).isError) _ = _
  rw [isError_infoOf]
  rfl

theorem forestLine_errorNode (ts : List Tree) (state : Nat) :
    forestLine false [.errorNode ts state] =
      (forestFrontier ts).map fun x => (x.asLexed, true) := by
  change forestLine (false || (infoOf Kind.error ts [] state true).isError) ts ++ [] = _
  rw [isError_infoOf, List.append_nil]
  exact forestLine_inError ts

/-- A reduction leaves the line as it is. -/
theorem forestLine_reduced (lhs : Kind) (elements : Array Element) (state : Nat) :
    forestLine false (treesOf (reduced l lhs elements state)) =
      forestLine false (treesOf elements) := by
  cases hvisible : l.isVisible lhs with
  | false => rw [reduced_hidden hvisible]
  | true =>
    have hsplit : elements.toList.takeWhile (fun e => l.isTrivia e.2) ++
        elements.toList.dropWhile (fun e => l.isTrivia e.2) = elements.toList :=
      List.takeWhile_append_dropWhile
    rw [treesOf, reduced_visible hvisible, List.map_append, forestLine_append]
    simp only [List.map_cons, List.map_nil, forestLine, line_branchOf, List.append_nil]
    rw [← forestLine_append, ← List.map_append, hsplit]
    rfl

/-- What a reduction makes is in what it took, or is the new node, behind which nothing follows. -/
theorem occurs_reduced {lhs : Kind} {elements : Array Element} {state i : Nat} {t : Tree}
    (h : Occurs (treesOf (reduced l lhs elements state)) i t) : Occurs (treesOf elements) i t ∨
      l.isVisible lhs = true ∧ t =
        branchOf lhs (elements.toList.dropWhile fun e => l.isTrivia e.2) state ∧
        i + t.frontier.length = (forestFrontier (treesOf elements)).length := by
  cases hvisible : l.isVisible lhs with
  | false =>
    rw [reduced_hidden hvisible] at h
    exact .inl h
  | true =>
    have hsplit : treesOf elements =
        (elements.toList.takeWhile fun e => l.isTrivia e.2).map (·.2) ++
          (elements.toList.dropWhile fun e => l.isTrivia e.2).map (·.2) := by
      rw [← List.map_append, List.takeWhile_append_dropWhile]
      rfl
    rw [treesOf, reduced_visible hvisible, List.map_append] at h
    rcases h.of_append with hfront | ⟨j, rfl, hnode⟩
    · rw [hsplit]
      exact .inl (hfront.append_left _)
    · cases hnode with
      | here =>
        refine .inr ⟨rfl, rfl, ?_⟩
        rw [hsplit, forestFrontier_append, List.length_append]
        rfl
      | inside below =>
        rw [hsplit]
        exact .inl (below.append_right _)
      | later behind => cases behind

end Reparse.Parse
