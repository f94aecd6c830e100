import Reparse.Proofs.Nodes
import Reparse.Proofs.Reparsing

/-! # The token behind an old subtree

A subtree of the old tree is taken over if the next token that is no extra is the one that followed
it in the old text. Both are looked up in tables that hold, for each place, the first place from
there on that matters. -/
namespace Reparse

namespace Tree

mutual
private theorem line_snd (inError : Bool) :
    (t : Tree) → (t.line inError).map (·.2) = t.marks inError
  | .leaf _ => rfl
  | .node info children => forestLine_snd (inError || info.isError) children

private theorem forestLine_snd (inError : Bool) :
    (ts : List Tree) → (forestLine inError ts).map (·.2) = forestMarks inError ts
  | [] => rfl
  | t :: rest => by rw [forestLine, forestMarks, List.map_append, line_snd, forestLine_snd]
end

end Tree

namespace Parse
open Reparse.Tree

/-! ## First places -/

/-- The place `j` is the first from `i` on that satisfies `p`, or `n` if there is none. -/
structure FirstWhere (p : Nat → Bool) (n i j : Nat) : Prop where
  le : i ≤ j
  inside : j ≤ n
  before : ∀ x, i ≤ x → x < j → p x = false
  here : j < n → p j = true

variable {p : Nat → Bool} {n : Nat}

theorem FirstWhere.of_true {i : Nat} (h : p i = true) (hi : i ≤ n) : FirstWhere p n i i :=
  ⟨Nat.le_refl i, hi, fun _ hle hlt => absurd hlt (Nat.not_lt.2 hle), fun _ => h⟩

theorem FirstWhere.of_false {i j : Nat} (h : FirstWhere p n (i + 1) j) (hi : p i = false) :
    FirstWhere p n i j where
  le := Nat.le_of_succ_le h.le
  inside := h.inside
  before x hle hlt := by
    rcases Nat.eq_or_lt_of_le hle with rfl | hle
    · exact hi
    · exact h.before x hle hlt
  here := h.here

theorem FirstWhere.last : FirstWhere p n n n :=
  ⟨Nat.le_refl n, Nat.le_refl n, fun _ hle hlt => absurd hlt (Nat.not_lt.2 hle),
    fun hlt => absurd hlt (Nat.lt_irrefl n)⟩

/-- Where the tokens from a place on are looked through, the first place tells what is found. -/
theorem FirstWhere.find?_drop {α : Type} {xs : List α} {f : α → Bool} {i j : Nat}
    (h : FirstWhere p xs.length i j) (hp : ∀ x a, xs[x]? = some a → p x = f a) :
    (xs.drop i).find? f = xs[j]? := by
  have hsplit : xs.drop i = (xs.drop i).take (j - i) ++ xs.drop j := by
    conv => lhs; rw [← List.take_append_drop (j - i) (xs.drop i)]
    rw [List.drop_drop, Nat.add_sub_cancel' h.le]
  have hnone : ((xs.drop i).take (j - i)).find? f = none := by
    rw [List.find?_eq_none]
    intro a ha
    obtain ⟨x, hx⟩ := List.mem_iff_getElem?.1 ha
    rw [List.getElem?_take] at hx
    split at hx
    · next hlt =>
      rw [List.getElem?_drop] at hx
      simp [← hp _ a hx, h.before (i + x) (by omega) (by omega)]
    · contradiction
  rw [hsplit, List.find?_append, hnone, Option.none_or]
  rcases Nat.lt_or_eq_of_le h.inside with hlt | rfl
  · have hj := List.getElem?_eq_getElem hlt
    rw [List.drop_eq_getElem_cons hlt, hj, List.find?_cons_of_pos]
    rw [← hp j _ hj]
    exact h.here hlt
  · simp

/-- One step of the scan from the right: the first place so far, and the first places from there on
in reverse. -/
private def scanFirst (p : Nat → Bool) (i : Nat) (acc : Nat × Array Nat) : Nat × Array Nat :=
  (if p i then i else acc.1, acc.2.push (if p i then i else acc.1))

private theorem firstWhere_foldr (p : Nat → Bool) (k s : Nat) :
    FirstWhere p (s + k) s ((List.range' s k).foldr (scanFirst p) (s + k, #[s + k])).1 ∧
      ∀ i ≤ k, ∃ j, ((List.range' s k).foldr (scanFirst p) (s + k, #[s + k])).2.toList.reverse[i]? =
        some j ∧
        FirstWhere p (s + k) (s + i) j := by
  induction k generalizing s with
  | zero =>
    refine ⟨.last, fun i hi => ⟨s, ?_, ?_⟩⟩
    · obtain rfl := Nat.le_zero.1 hi
      rfl
    · obtain rfl := Nat.le_zero.1 hi
      exact .last
  | succ k ih =>
    obtain ⟨hfirst, hrest⟩ := ih (s + 1)
    rw [show s + 1 + k = s + (k + 1) by omega] at hfirst hrest
    have hhere : FirstWhere p (s + (k + 1)) s
        ((List.range' s (k + 1)).foldr (scanFirst p) (s + (k + 1), #[s + (k + 1)])).1 := by
      rw [List.range'_succ, List.foldr_cons, scanFirst]
      cases hp : p s with
      | true => exact .of_true hp (by omega)
      | false => exact hfirst.of_false hp
    refine ⟨hhere, fun i hi => ?_⟩
    cases i with
    | zero =>
      refine ⟨_, ?_, hhere⟩
      rw [List.range'_succ, List.foldr_cons, scanFirst, Array.toList_push, List.reverse_append]
      rfl
    | succ i =>
      obtain ⟨j, hj, hwhere⟩ := hrest i (by omega)
      refine ⟨j, ?_, by rwa [show s + (i + 1) = s + 1 + i by omega]⟩
      rw [List.range'_succ, List.foldr_cons, scanFirst, Array.toList_push, List.reverse_append]
      exact hj

private theorem firstWhere_nextWhere (p : Nat → Bool) {n i : Nat} (hi : i ≤ n) :
    ∃ j, (nextWhere p n)[i]? = some j ∧ FirstWhere p n i j := by
  obtain ⟨-, hall⟩ := firstWhere_foldr p n 0
  rw [Nat.zero_add] at hall
  obtain ⟨j, hj, hwhere⟩ := hall i hi
  refine ⟨j, ?_, by rwa [Nat.zero_add] at hwhere⟩
  have hscan : nextWhere p n = ((List.range' 0 n).foldr (scanFirst p) (n, #[n])).2.reverse := by
    simp only [nextWhere, List.foldl_reverse, List.range_eq_range']
    rfl
  rw [hscan, ← Array.getElem?_toList, Array.toList_reverse]
  exact hj

/-! ## Slots and lines -/

variable {l : Language} {root : Tree}

/-- The line of an old tree tells of every leaf what its slot tells. -/
theorem Survey.line_of_slot {i : Nat} {slot : OldSlot} {x : Leaf} {inError : Bool}
    (hslot : (ofTree l root)[i]? = some slot)
    (hline : (forestLine false root.children)[i]? = some (x, inError)) :
    slot.inError = inError ∧ ∃ leaf, (forestFrontier root.children)[i]? = some leaf ∧
      leaf.asLexed = x ∧
      slot.extra = l.isExtra leaf.kind := by
  obtain ⟨s, hadds⟩ := adds_ofTree (l := l) root
  rw [← Array.getElem?_toList] at hslot
  have hmark := congrArg (·[i]?) (hadds.inError.trans (forestLine_snd false root.children).symm)
  have hextra := congrArg (·[i]?) hadds.extra
  have hleaf := congrArg (·[i]?) (forestLine_fst false root.children)
  simp only [List.getElem?_map, hslot, hline, Option.map_some] at hmark hextra hleaf
  obtain ⟨leaf, hfrontier, hx⟩ := Option.map_eq_some_iff.1 hleaf.symm
  rw [hfrontier, Option.map_some] at hextra
  exact ⟨Option.some.inj hmark, leaf, hfrontier, hx, Option.some.inj hextra⟩

private theorem Survey.size_ofTree (l : Language) (root : Tree) :
    (ofTree l root).size = (forestLine false root.children).length := by
  obtain ⟨s, hadds⟩ := adds_ofTree (l := l) root
  rw [length_forestLine, ← hadds.length, Array.length_toList]

/-- The next old leaf that is no extra is the next token of the line. -/
private theorem nextOf_drop_line
    (hread : ∀ x ∈ forestFrontier root.children, l.isExtra x.kind = l.isExtra x.asLexed.kind)
    {i j : Nat}
    (h : FirstWhere (fun i => (Survey.ofTree l root)[i]?.any (!·.extra))
      (Survey.ofTree l root).size i j) :
    nextOf l ((forestLine false root.children).drop i) = (forestLine false root.children)[j]? := by
  rw [Survey.size_ofTree] at h
  refine h.find?_drop fun i a ha => ?_
  have hlt : i < (Survey.ofTree l root).size := by
    rw [Survey.size_ofTree]
    exact (List.getElem?_eq_some_iff.1 ha).1
  have hslot := Array.getElem?_eq_getElem hlt
  obtain ⟨-, leaf, hleaf, hx, hextra⟩ := Survey.line_of_slot hslot ha
  rw [hslot, Option.any_some, hextra, hread leaf (List.mem_of_getElem? hleaf), hx]

/-! ## Subtrees that are taken over -/

/-- What the parser may take over it would make of the tokens ahead. -/
def Job.Replays (job : Job) : Prop :=
  ∀ (m : Machine) (t : Tree) (next : Nat), job.reusable? m = some (t, next) →
  Builds job.language m.stack.top.state (t.frontier.map Leaf.asLexed) [⟨next, #[(none, t)]⟩]
    (firstProper job.language (job.leaves.drop (m.position + t.leafCount)))

/-- The first token that is no extra, from a place on. -/
private theorem firstProper_drop (job : Job) {i j : Nat}
    (h : FirstWhere (fun i => job.stream[i]?.any fun t => !job.language.isExtra t.leaf.kind)
      job.stream.size i j) :
    firstProper job.language (job.leaves.drop i) = job.leaf? j := by
  have hsize : job.stream.size = job.leaves.length := by simp [Job.leaves]
  rw [hsize] at h
  rw [Job.leaf?_eq]
  refine h.find?_drop fun i a ha => ?_
  rw [← Job.leaf?_eq] at ha
  obtain ⟨token, htoken, rfl⟩ := Option.map_eq_some_iff.1 ha
  rw [htoken, Option.any_some]

namespace Reuse

variable {stream : Array StreamToken} {position state origin next : Nat} {t u : Tree}

/-- What is taken over is followed by the token that followed it in the old text, and by no
error. -/
theorem Fits.next_eq (job : Job) (hstream : job.stream = stream)
    (h : Fits (ofTree job.language t stream) job.language stream position state origin u next)
    (hread : ∀ x ∈ forestFrontier t.children, job.language.isExtra x.kind =
      job.language.isExtra x.asLexed.kind)
    (horigin : ∀ i j, stream[i]?.bind (·.origin) = some j →
      job.leaf? i = (forestFrontier t.children)[j]?.map Leaf.asLexed)
    (hold : origin + u.leafCount ≤ (forestFrontier t.children).length)
    (hnew : position + u.leafCount ≤ stream.size) :
    nextOf job.language ((forestLine false t.children).drop (origin + u.leafCount)) =
      (firstProper job.language (job.leaves.drop (position + u.leafCount))).map (·, false) := by
  subst hstream
  rw [← length_forestLine false, ← Survey.size_ofTree job.language] at hold
  obtain ⟨i, hi, hfirst⟩ := firstWhere_nextWhere
    (fun i => job.stream[i]?.any fun t => !job.language.isExtra t.leaf.kind) hnew
  obtain ⟨j, hj, hwhere⟩ := firstWhere_nextWhere
    (fun i => (Survey.ofTree job.language t)[i]?.any (!·.extra)) hold
  have holdSignificant : (ofTree job.language t job.stream).oldSignificant (origin + u.leafCount) =
      j := by
    unfold oldSignificant ofTree
    rw [hj]
    rfl
  have hsignificant := h.significant
  have hclean := h.clean
  rw [holdSignificant] at hsignificant hclean
  have hfound : (ofTree job.language t job.stream).significant? job.stream
      (position + u.leafCount) = job.stream[i]? := by
    unfold significant? ofTree
    rw [hi]
    rfl
  rw [nextOf_drop_line hread hwhere, firstProper_drop job hfirst, Job.leaf?]
  unfold significantOrigin at hsignificant
  rw [hfound] at hsignificant
  cases htoken : job.stream[i]? with
  | none =>
    rw [htoken] at hsignificant
    obtain rfl : (Survey.ofTree job.language t).size = j := Option.some.inj hsignificant
    rw [Survey.size_ofTree, List.getElem?_eq_none (Nat.le_refl _)]
    rfl
  | some token =>
    rw [htoken] at hsignificant
    have hleaf := horigin i j (by rw [htoken]; exact hsignificant)
    rw [Job.leaf?, htoken, Option.map_some] at hleaf
    obtain ⟨leaf, hfrontier, hlexed⟩ := Option.map_eq_some_iff.1 hleaf.symm
    have hlt : j < (forestLine false t.children).length := by
      rw [length_forestLine]
      exact (List.getElem?_eq_some_iff.1 hfrontier).1
    have hline := List.getElem?_eq_getElem hlt
    have hinside : j < (Survey.ofTree job.language t).size := by rwa [Survey.size_ofTree]
    have hslot := Array.getElem?_eq_getElem hinside
    obtain ⟨hmark, leaf', hfrontier', hx, -⟩ := Survey.line_of_slot hslot hline
    rw [hfrontier, Option.some.injEq] at hfrontier'
    subst hfrontier'
    have hunmarked : (Survey.ofTree job.language t)[j].inError = false := by
      change ¬ (Survey.ofTree job.language t)[j]?.any (·.inError) = true at hclean
      rw [hslot] at hclean
      simpa using hclean
    rw [hline, Option.map_some, Option.map_some]
    exact congrArg some (Prod.ext (hx.symm.trans hlexed) (hmark.symm.trans hunmarked))

end Reuse
end Parse

open Text Parse Reparse.Tree

namespace Parser

variable {p q : Parser} {old new : Bytes} {edits : List Edit}

/-- Leaves of the tree of a text are extras if they were lexed as extras. -/
private theorem isExtra_frontier (k : Compilation) (hword : k.language.WordApart)
    (hq : q.language = k.language) (old : Bytes) :
    ∀ x ∈ forestFrontier (q.parse old).root.children,
      k.language.isExtra x.kind = k.language.isExtra x.asLexed.kind := by
  intro x hx
  have hroot := (scratch_job k hq old).rootMade_run hword
  rw [← root_parse] at hroot
  rw [forestFrontier_eq_flatMap] at hx
  obtain ⟨c, hc, hx⟩ := List.mem_flatMap.1 hx
  rcases ((hroot.below c hc).frontier x hx).kind with hsame | ⟨-, hread, hlexed⟩
  · exact congrArg k.language.isExtra hsame
  · exact (hword _ hread).trans hlexed.symm

/-- Subtrees of the tree of a text are taken over only where the parser would make them. -/
theorem replays_job (k : Compilation) (hword : k.language.WordApart) (hp : p.language = k.language)
    (hq : q.language = k.language) (hold : old.size ≤ maxSize) (hnew : new.size ≤ maxSize) :
    (p.job new (some (q.parse old)) edits).Replays := by
  intro m u next hfound
  have heq {t : SyntaxTree} (ht : p.usable (some (q.parse old)) = some t) : q.parse old = t :=
    Option.some.inj (Option.filter_eq_some_iff.1 ht).1
  have hfaithful : ∀ t, p.usable (some (q.parse old)) = some t → t.Faithful :=
    fun t ht => heq ht ▸ faithful_scratch k hq hold
  have hcovers : (p.tokens new (some (q.parse old)) edits).Covers
      (p.oldLeaves (some (q.parse old)) edits) new.size :=
    covers_tokens k hp hnew hfaithful
  have hlanguage : (p.job new (some (q.parse old)) edits).language = k.language := hp
  obtain ⟨hconsistent, htokens⟩ := reuse_tokens hfaithful hcovers hfound
  obtain ⟨-, r, hr, hcandidate⟩ := Job.of_reusable? hfound
  obtain ⟨t, ht, rfl⟩ := Option.map_eq_some_iff.1 hr
  obtain ⟨ht, -⟩ := Option.filter_eq_some_iff.1 ht
  obtain rfl := heq ht
  obtain ⟨origin, slot, horigin, hslot, hstarting, hfits⟩ := Reuse.of_candidate? hcandidate
  obtain ⟨hreusable, hoccurs⟩ := Survey.occurs_of_starting hslot hstarting
  have hcount : u.leafCount = u.frontier.length := by
    rw [hconsistent.leafCount_eq]
    exact clamp_of_le ((hfaithful _ ht).length_le_of_occurs hoccurs)
  have hnode : (q.parse old).root.isNode = true :=
    (Job.lossless_run (q.scratch_job k hq old).sound).node
  have hinside : origin + u.leafCount ≤ (forestFrontier (q.parse old).root.children).length := by
    obtain ⟨before, after, hsplit, rfl⟩ := hoccurs.split
    rw [hsplit, hcount, List.length_append, List.length_append]
    omega
  have hplace : m.position + u.leafCount ≤
      (p.tokens new (some (q.parse old)) edits).tokens.size := by
    have hlength := congrArg List.length htokens
    rw [List.length_map, ← hcount, List.length_take, List.length_drop] at hlength
    have hpositive := hfits.leaves
    have hsize : (p.tokens new (some (q.parse old)) edits).tokens.size =
        (p.job new (some (q.parse old)) edits).leaves.length := by simp [Job.leaves, job]
    omega
  have hnext := hfits.next_eq (p.job new (some (q.parse old)) edits) rfl
    (by rw [hlanguage]; exact isExtra_frontier k hword hq old)
    (fun i j hij =>
    by rw [Job.leaf?_eq, leaf_of_origin ht (hfaithful _ ht) hcovers hij, frontier_children _ hnode])
    hinside hplace
  have hnodes := Job.replays_run (q.scratch_job k hq old) (show q.language.WordApart by rwa [hq])
  have hsame : (q.job old none []).language = (p.job new (some (q.parse old)) edits).language :=
    hq.trans hlanguage.symm
  rw [hsame, ← root_parse] at hnodes
  have hreplays :=
    hnodes origin u hoccurs hreusable _ (by rw [List.append_nil, ← hcount]; exact hnext)
  obtain ⟨info, children, rfl, hstate⟩ := hfits.base
  obtain ⟨state, hgoes, hbuilds⟩ := hreplays
  rw [hstate] at hgoes hbuilds
  obtain rfl : next = state := Option.some.inj (hfits.goto.symm.trans hgoes)
  exact hbuilds

end Parser
end Reparse
